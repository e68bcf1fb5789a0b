import ParchTestbench.Machine.NumberedTree
import ParchTestbench.ParchFS.FaithfulImage
import ParchTestbench.ParchFS.Supply

/-!
# ParchFS: the namespace

The directories and files that calls of `make_dir` and `make_file` create, as a tree that
grows by numbered leaves: the numbers are the inodes, the labels the entries that name them.

Main results:

- Theorem `Namespace.grow`: a creation hangs up one leaf.
- Theorem `Namespace.isTree`: a volume with such a tree is one to its reader.
- Theorem `Reached.isTree`: every run of creations that finds the blocks it needs in front
  of the metadata keeps the tree.
-/

namespace ParchTestbench

open ParchFS Program

variable {lo hi last i j p no : Nat} {base s t u : ParchFS} {env : Env} {op : Op} {d : DEntry}
  {es : List DEntry} {name : List UInt8} {made : List Nat} {tree : NumberedTree DEntry}

/-! ## What a creation does -/

theorem Touches.linkCount (h : Touches lo hi last i s t) (hj : j < 8192) :
    linkCount t.mem j = linkCount s.mem j := by
  refine Mem.load_congr fun x hx hx' => ?_
  rw [INode.hardLinkCount_eq] at hx hx'
  refine h.table x (by omega) (by omega) ?_ ?_ <;> rw [INode.addr_eq] <;> omega

/-- From `s` to `t` a call has made inode `last + 1`, named by entry `d` of directory `p`. -/
structure Created (lo hi last p : Nat) (d : DEntry) (s t : ParchFS) : Prop where
  owned : Ownership lo hi (last + 1) t
  state : t = s.withMem t.mem
  closed : Closed hi s.mem → Closed hi t.mem
  number : d.inode = last + 1
  types : ∀ i, i ≤ last → fileType t.mem i = fileType s.mem i
  links : ∀ i, i ≤ last → linkCount t.mem i = linkCount s.mem i
  type_new : fileType t.mem (last + 1) = d.fType.code
  links_new : linkCount t.mem (last + 1) = if d.fType = .DIR then 3 else 1
  dirs : ∀ i es, i ≤ last → HoldsDir i es s → HoldsDir i (es ++ if p = i then [d] else []) t
  dir_new : d.fType = .DIR → HoldsDir (last + 1) (dots (last + 1) p) t

theorem created_of_makeDir (heff : (Op.makeDir env p name).Effect lo hi last s t)
    (hown : Ownership lo hi last s) (hlast : last < 8191) (hp : p ≤ last) :
    Created lo hi last p (dirEntry env (last + 1) name) s t := by
  have hroom : last + (Op.makeDir env p name).added < 8192 := Nat.succ_lt_succ hlast
  have hnew := heff.holdsDir_new hlast (by omega)
  rw [Op.entries, if_neg (by omega), List.append_nil] at hnew
  have hdirs := fun i es (hi : i ≤ last) (hdir : HoldsDir i es s) =>
    hdir.step hown hroom hi heff trivial
  obtain ⟨-, -, -, v, w, k, hv, hw, hk⟩ := heff
  refine ⟨hk.owned, ?_, fun hclosed => ?_, rfl, fun i hi => ?_, fun i hi => ?_, hnew.type_eq, ?_,
    hdirs, fun _ => hnew⟩
  · rw [hk.touches.state, hw.touches.state, hv.state]
    rfl
  · exact hk.touches.closed (hw.touches.closed (hv.closed hlast hclosed))
  · rw [hk.touches.fileType (by omega), hw.touches.fileType (by omega), hv.fileType hlast hi]
  · rw [hk.touches.linkCount (by omega), hw.touches.linkCount (by omega), hv.linkCount hlast hi]
  · rw [hk.touches.linkCount (by omega), hw.touches.linkCount (by omega), hv.links_eq]
    rfl

theorem created_of_makeFile (heff : (Op.makeFile env p name).Effect lo hi last s t)
    (hown : Ownership lo hi last s) (hlast : last < 8191) :
    Created lo hi last p (fileEntry (last + 1) name) s t := by
  have hroom : last + (Op.makeFile env p name).added < 8192 := Nat.succ_lt_succ hlast
  have hdirs := fun i es (hi : i ≤ last) (hdir : HoldsDir i es s) =>
    hdir.step hown hroom hi heff trivial
  obtain ⟨-, v, k, hv, hk⟩ := heff
  refine ⟨hk.owned, ?_, fun hclosed => ?_, rfl, fun i hi => ?_, fun i hi => ?_, ?_, ?_, hdirs,
    fun hc => by cases hc⟩
  · rw [hk.touches.state, hv.state]
    rfl
  · exact hk.touches.closed (hv.closed hlast hclosed)
  · rw [hk.touches.fileType (by omega), hv.fileType hlast hi]
  · rw [hk.touches.linkCount (by omega), hv.linkCount hlast hi]
  · rw [hk.touches.fileType (by omega), hv.type_eq]
    rfl
  · rw [hk.touches.linkCount (by omega), hv.links_eq]
    rfl

/-! ## The tree of a volume -/

/-- The entries of directory `i`: itself, its parent and its children. -/
def dirEntries (tree : NumberedTree DEntry) (i : Nat) : List DEntry :=
  dots i (tree.parent i) ++ (tree.children i).map Prod.snd

/-- A creation adds its entry to the directory it names, -/
theorem dirEntries_grow_of_le {hp : 0 < p} {hp' : p ≤ tree.size} (hi : i ≤ tree.size) :
    dirEntries (tree.grow p d hp hp') i = dirEntries tree i ++ if p = i then [d] else [] := by
  have hnew : (if p = i then [(tree.size + 1, d)] else []).map Prod.snd =
      if p = i then [d] else [] := by
    split <;> rfl
  rw [dirEntries, NumberedTree.parent_grow_of_le hi, NumberedTree.children_grow, List.map_append,
    hnew, ← List.append_assoc, dirEntries]

/-- and the new inode has no children. -/
theorem dirEntries_grow_self {hp : 0 < p} {hp' : p ≤ tree.size} :
    dirEntries (tree.grow p d hp hp') (tree.size + 1) = dots (tree.size + 1) p := by
  have hnone : tree.children (tree.size + 1) = [] := by
    refine List.eq_nil_iff_forall_not_mem.mpr fun l hl => ?_
    obtain ⟨hlt, hle, hparent⟩ := NumberedTree.parent_of_mem hl
    have hbelow := (NumberedTree.parent_lt hlt hle).2
    omega
  rw [dirEntries, NumberedTree.parent_grow_self, NumberedTree.children_grow, hnone,
    if_neg (by omega)]
  rfl

/-- The inodes of the volume form the tree. -/
structure Namespace (lo hi : Nat) (tree : NumberedTree DEntry) (s : ParchFS) : Prop where
  owned : Ownership lo hi tree.size s
  root : fileType s.mem 1 = FType.DIR.code
  leaf : ∀ i d p, (i, d) ∈ tree.children p →
    d.inode = i ∧ fileType s.mem i = d.fType.code ∧ fileType s.mem p = FType.DIR.code
  links : ∀ i, 0 < i → i ≤ tree.size →
    linkCount s.mem i = if fileType s.mem i = FType.DIR.code then 3 else 1
  dirs : ∀ i, 0 < i → i ≤ tree.size → fileType s.mem i = FType.DIR.code →
    HoldsDir i (dirEntries tree i) s

namespace Namespace

/-- A creation hangs up one leaf. -/
theorem grow (h : Namespace lo hi tree s) (hp : 0 < p) (hp' : p ≤ tree.size)
    (hdir : fileType s.mem p = FType.DIR.code) (ht : Created lo hi tree.size p d s t) :
    Namespace lo hi (tree.grow p d hp hp') t := by
  have hsize : (tree.grow p d hp hp').size = tree.size + 1 := NumberedTree.size_grow
  have hpos : 0 < tree.size := NumberedTree.size_pos
  have hcode : d.fType.code = FType.DIR.code ↔ d.fType = .DIR := by
    cases d.fType <;> decide
  refine ⟨by rw [hsize]; exact ht.owned, (ht.types 1 (by omega)).trans h.root, ?_, ?_, ?_⟩
  · intro i e q hmem
    rw [NumberedTree.children_grow, List.mem_append] at hmem
    rcases hmem with hold | hnew
    · obtain ⟨-, hle, hparent⟩ := NumberedTree.parent_of_mem hold
      obtain ⟨hno, htype, hq⟩ := h.leaf i e q hold
      have hqle : q ≤ tree.size := by
        have hlt := (NumberedTree.parent_lt (t := tree) (NumberedTree.parent_of_mem hold).1 hle).2
        omega
      exact ⟨hno, (ht.types i hle).trans htype, (ht.types q hqle).trans hq⟩
    · split at hnew
      · rename_i hq
        subst hq
        cases List.mem_singleton.mp hnew
        exact ⟨ht.number, ht.type_new, (ht.types p hp').trans hdir⟩
      · exact absurd hnew List.not_mem_nil
  · intro i hi hle
    rw [hsize] at hle
    rcases Nat.lt_succ_iff_lt_or_eq.mp (Nat.lt_succ_of_le hle) with hlt | rfl
    · rw [ht.links i (by omega), ht.types i (by omega)]
      exact h.links i hi (by omega)
    · rw [ht.links_new, ht.type_new]
      simp only [hcode]
  · intro i hi hle htype
    rw [hsize] at hle
    rcases Nat.lt_succ_iff_lt_or_eq.mp (Nat.lt_succ_of_le hle) with hlt | rfl
    · rw [ht.types i (by omega)] at htype
      rw [dirEntries_grow_of_le (by omega)]
      exact ht.dirs i _ (by omega) (h.dirs i hi (by omega) htype)
    · rw [ht.type_new, hcode] at htype
      rw [dirEntries_grow_self]
      exact ht.dir_new htype

/-- The root of a new volume has no children. -/
theorem of_founded (h : Founded lo hi base s t u) : Namespace lo hi NumberedTree.leafless u := by
  have hdir := h.holdsDir
  refine ⟨h.dotted.owned, hdir.type_eq, fun i d p hmem => absurd hmem List.not_mem_nil, ?_, ?_⟩
  · intro i hi hle
    obtain rfl : i = 1 := Nat.le_antisymm hle hi
    rw [if_pos hdir.type_eq, h.dotted.touches.linkCount (by omega), h.spawned.links_eq]
  · intro i hi hle _
    obtain rfl : i = 1 := Nat.le_antisymm hle hi
    exact hdir

end Namespace

/-! ## What a reader finds -/

/-- The inode numbers `n ... 1`, in the order in which a list of calls shows them. -/
def numbers : Nat → List Nat
  | 0 => []
  | n + 1 => (n + 1) :: numbers n

theorem mem_numbers {n : Nat} : i ∈ numbers n ↔ 0 < i ∧ i ≤ n := by
  induction n with
  | zero =>
      rw [numbers]
      exact ⟨fun h => absurd h List.not_mem_nil, fun h => absurd h.1 (by omega)⟩
  | succ n ih =>
      rw [numbers, List.mem_cons, ih]
      omega

theorem length_numbers (n : Nat) : (numbers n).length = n := by
  induction n with
  | zero => rfl
  | succ n ih => rw [numbers, List.length_cons, ih]

/-- Slot `l + 2` of directory `j` names inode `i`. -/
def Names (made : List Nat) (es : Nat → List DEntry) (s : ParchFS) (i j l : Nat) : Prop :=
  j ∈ made ∧ fileType s.mem j = FType.DIR.code ∧ ((es j)[l + 2]?).map DEntry.inode = some i

/-- The inode number in the second slot of directory `i`. -/
def dotDotInode (es : Nat → List DEntry) (i : Nat) : Nat :=
  (((es i)[1]?).map DEntry.inode).getD 0

/-- The entries `es` of the directories make a tree of the inodes `made`. -/
structure IsTree (made : List Nat) (es : Nat → List DEntry) (s : ParchFS) : Prop where
  reads : ∀ i ∈ made, fileType s.mem i = FType.DIR.code → ReadsDir s i (es i)
  named : ∀ i ∈ made, i ≠ rootInode → ∃! e : Nat × Nat, Names made es s i e.1 e.2
  type_eq : ∀ j ∈ made, fileType s.mem j = FType.DIR.code →
    ∀ l d, (es j)[l + 2]? = some d → fileType s.mem d.inode = d.fType.code
  dot : ∀ i ∈ made, fileType s.mem i = FType.DIR.code →
    ∃ d, (es i)[0]? = some d ∧ d.inode = i ∧ NamedBy d ['.'.toUInt8] .DIR
  dotDot : ∀ i ∈ made, fileType s.mem i = FType.DIR.code →
    ∃ d, (es i)[1]? = some d ∧ NamedBy d ['.'.toUInt8, '.'.toUInt8] .DIR ∧
      (i = rootInode → d.inode = rootInode) ∧ ∀ j l, Names made es s i j l → d.inode = j
  used : ∀ i ∈ made, fileType s.mem i = FType.DIR.code →
    ∀ d ∈ es i, inodeBit s.mem d.inode = true
  reaches : ∀ i ∈ made, fileType s.mem i = FType.DIR.code →
    ∃ n, (dotDotInode es)^[n] i = rootInode

namespace Namespace

/-- The slots behind the two first ones are those of the children. -/
theorem getElem?_dirEntries (l : Nat) :
    (dirEntries tree i)[l + 2]? = ((tree.children i)[l]?).map Prod.snd := by
  show ((tree.children i).map Prod.snd)[l]? = _
  rw [List.getElem?_map]

/-- A slot names the child that it shows. -/
theorem child_of_names (h : Namespace lo hi tree s) {l : Nat}
    (hn : Names made (dirEntries tree) s i j l) : ∃ d, (tree.children j)[l]? = some (i, d) := by
  obtain ⟨-, -, hslot⟩ := hn
  rw [getElem?_dirEntries] at hslot
  cases hchild : (tree.children j)[l]? with
  | none =>
      rw [hchild] at hslot
      cases hslot
  | some e =>
      rw [hchild] at hslot
      have hno := (h.leaf e.1 e.2 j (List.mem_of_getElem? hchild)).1
      refine ⟨e.2, ?_⟩
      rw [← Option.some.inj hslot]
      exact congrArg some (Prod.ext hno.symm rfl)

/-- Every inode but the root is named once. -/
theorem exists_names (h : Namespace lo hi tree s) (hi : 1 < i) (hi' : i ≤ tree.size) :
    ∃! e : Nat × Nat, Names (numbers tree.size) (dirEntries tree) s i e.1 e.2 := by
  obtain ⟨d, hd⟩ := NumberedTree.exists_mem_children hi hi'
  obtain ⟨l, hl⟩ := List.mem_iff_getElem?.mp hd
  obtain ⟨hpos, hlt⟩ := NumberedTree.parent_lt hi hi'
  obtain ⟨hno, -, hdir⟩ := h.leaf i d _ hd
  refine ⟨(tree.parent i, l), ⟨mem_numbers.mpr ⟨hpos, by omega⟩, hdir, ?_⟩, ?_⟩
  · rw [getElem?_dirEntries, hl]
    exact congrArg some hno
  · rintro ⟨j, k⟩ hn
    obtain ⟨e, he⟩ := h.child_of_names hn
    obtain ⟨rfl, rfl⟩ := NumberedTree.children_unique hl he
    rfl

/-- A volume with such a tree is one to its reader. -/
theorem isTree (h : Namespace lo hi tree s) :
    IsTree (numbers tree.size) (dirEntries tree) s := by
  have hparents : dotDotInode (dirEntries tree) = tree.parent := rfl
  refine ⟨fun i hmem hdir => ?_, fun i hmem hne => ?_, fun j hmem hdir l d hl => ?_,
    fun i _ _ => ⟨_, rfl, rfl, ?_⟩, fun i hmem hdir => ⟨_, rfl, ?_, ?_, ?_⟩, ?_, ?_⟩
  · obtain ⟨hi, hle⟩ := mem_numbers.mp hmem
    exact (h.dirs i hi hle hdir).readsDir h.owned hle
  · obtain ⟨hi, hle⟩ := mem_numbers.mp hmem
    exact h.exists_names (lt_of_le_of_ne hi (Ne.symm hne)) hle
  · rw [getElem?_dirEntries] at hl
    obtain ⟨e, he, rfl⟩ := Option.map_eq_some_iff.mp hl
    obtain ⟨hno, htype, -⟩ := h.leaf e.1 e.2 j (List.mem_of_getElem? he)
    rw [hno, htype]
  · exact namedBy_of_nameField (by decide) rfl rfl rfl
  · exact namedBy_of_nameField (by decide) rfl rfl rfl
  · rintro rfl
    rfl
  · intro j l hn
    obtain ⟨d, hd⟩ := h.child_of_names hn
    exact (NumberedTree.parent_of_mem (List.mem_of_getElem? hd)).2.2
  · intro i hmem _ d hd
    obtain ⟨hi, hle⟩ := mem_numbers.mp hmem
    have hlast := h.owned.last_lt
    have hbit : ∀ k, k ≤ tree.size → inodeBit s.mem k = true := fun k hk =>
      (h.owned.inodeBit_iff k (by omega)).mpr hk
    rcases List.mem_append.mp hd with hdots | hchild
    · rcases List.mem_cons.mp hdots with rfl | hdots
      · exact hbit i hle
      · rw [List.mem_singleton.mp hdots]
        refine hbit _ ?_
        by_cases hroot : i = 1
        · rw [hroot]
          exact NumberedTree.size_pos
        · have hlt := (NumberedTree.parent_lt (t := tree) (by omega) hle).2
          exact (hlt.le).trans hle
    · obtain ⟨e, he, rfl⟩ := List.mem_map.mp hchild
      rw [(h.leaf e.1 e.2 i he).1]
      exact hbit _ (NumberedTree.parent_of_mem he).2.1
  · intro i hmem _
    obtain ⟨hi, hle⟩ := mem_numbers.mp hmem
    rw [hparents]
    exact NumberedTree.exists_iterate_parent hi hle

end Namespace

/-! ## Runs of creations -/

/-- The volumes that calls of `make_dir` and `make_file` reach from `s₀`, with the inodes
made so far, the last one first.  Every call meets condition `C`. -/
inductive Reached (C : List Nat → ParchFS → Op → Prop) (s₀ : ParchFS) :
    List Nat → ParchFS → Prop
  | new : Reached C s₀ [rootInode] s₀
  | makeDir {made : List Nat} {s t : ParchFS} {env : Env} {p no : Nat} {name : List UInt8}
      (before : Reached C s₀ made s) (allowed : C made s (.makeDir env p name))
      (hrun : ParchFS.makeDir env p name s = .ok (no, t)) : Reached C s₀ (no :: made) t
  | makeFile {made : List Nat} {s t : ParchFS} {env : Env} {p no : Nat} {name : List UInt8}
      (before : Reached C s₀ made s) (allowed : C made s (.makeFile env p name))
      (hrun : ParchFS.makeFile env p name s = .ok (no, t)) : Reached C s₀ (no :: made) t

/-- The parent is a directory that has been made, and the table has a free inode. -/
structure BelowDirectory (made : List Nat) (s : ParchFS) (op : Op) : Prop where
  parent_mem : op.subject ∈ made
  parent_dir : fileType s.mem op.subject = FType.DIR.code
  room : made.length < 8191

/-- The number of blocks that a creation takes: one for a new directory, and those of the
entry in its parent. -/
def ParchFS.Op.demand (m : Mem) : Op → Nat
  | makeDir _ p _ => 1 + entryCost m p
  | makeFile _ p _ => entryCost m p
  | _ => 0

/-- The metadata is marked, or the call finds the blocks that it needs in front of it. -/
def Supplied (s : ParchFS) (op : Op) : Prop :=
  reserveStart s ≤ 0x7FDDE ∨ op.demand s.mem ≤ freeCount (poolEnd s) s.mem

/-- What is known of a volume that supplied creations reach. -/
structure Populated (base : ParchFS) (tree : NumberedTree DEntry) (s : ParchFS) : Prop where
  inodes : Namespace (pa2blkno base base.eKernel) (poolEnd base) tree s
  state : s = base.withMem s.mem
  closed : reserveStart base ≤ 0x7FDDE → Closed (poolEnd base) s.mem

/-- The volume that the constructor returns. -/
theorem populated_of_init (hinit : init env base = .ok ((), u)) (hroot : rootBlkNo base < 0x7FDDE) :
    Populated base NumberedTree.leafless u := by
  obtain ⟨s, t, hfounded⟩ := founded_of_init hinit hroot
  exact ⟨Namespace.of_founded hfounded, hfounded.state, fun hr => (healthy_of_init hinit hr).closed⟩

namespace Populated

theorem room (h : Populated base tree s) (hsupplied : Supplied s op) :
    Room (poolEnd base) (op.demand s.mem) s.mem := by
  have hreserve : reserveStart s = reserveStart base := by
    rw [h.state]
    rfl
  have hpool : poolEnd s = poolEnd base := by
    rw [poolEnd, poolEnd, hreserve]
  rw [Supplied, hreserve, hpool] at hsupplied
  exact hsupplied.imp_left h.closed

/-- A creation that finds its blocks hangs up one leaf. -/
theorem grow (h : Populated base tree s) (hbelow : BelowDirectory (numbers tree.size) s op)
    (hp : p = op.subject)
    (hcreated : Created (pa2blkno base base.eKernel) (poolEnd base) tree.size p d s t) :
    ∃ tree' : NumberedTree DEntry, tree'.size = tree.size + 1 ∧ Populated base tree' t := by
  subst hp
  obtain ⟨hpos, hle⟩ := mem_numbers.mp hbelow.parent_mem
  refine ⟨tree.grow op.subject d hpos hle, NumberedTree.size_grow,
    h.inodes.grow hpos hle hbelow.parent_dir hcreated, ?_, fun hr => hcreated.closed (h.closed hr)⟩
  rw [hcreated.state, h.state]
  rfl

/-- The parent of a creation, and the room in it. -/
theorem parent (h : Populated base tree s) (hbelow : BelowDirectory (numbers tree.size) s op) :
    0 < op.subject ∧ op.subject ≤ tree.size ∧ tree.size < 8191 ∧
      HoldsDir op.subject (dirEntries tree op.subject) s ∧
        128 * ((dirEntries tree op.subject).length + 1) < 4259840 := by
  obtain ⟨hpos, hle⟩ := mem_numbers.mp hbelow.parent_mem
  have hlast := hbelow.room
  rw [length_numbers] at hlast
  have hchildren := NumberedTree.length_children_lt (t := tree) (j := op.subject)
  have hlen : (dirEntries tree op.subject).length = 2 + (tree.children op.subject).length := by
    rw [dirEntries, List.length_append, List.length_map]
    rfl
  exact ⟨hpos, hle, hlast, h.inodes.dirs _ hpos hle hbelow.parent_dir, by omega⟩

theorem makeDir (h : Populated base tree s)
    (hbelow : BelowDirectory (numbers tree.size) s (.makeDir env p name))
    (hsupplied : Supplied s (.makeDir env p name))
    (hrun : ParchFS.makeDir env p name s = .ok (no, t)) :
    no = tree.size + 1 ∧ ∃ tree' : NumberedTree DEntry, tree'.size = tree.size + 1 ∧
      Populated base tree' t := by
  have hroom := h.room hsupplied
  rw [Op.demand] at hroom
  obtain ⟨hpos, hle, hlast, hdir, hlen⟩ := h.parent hbelow
  obtain ⟨hno, heff, -⟩ :=
    (makeDir_supplied h.inodes.owned hlast hpos hle hdir hlen hroom).of_ok hrun
  exact ⟨hno, h.grow hbelow rfl (created_of_makeDir heff h.inodes.owned hlast hle)⟩

theorem makeFile (h : Populated base tree s)
    (hbelow : BelowDirectory (numbers tree.size) s (.makeFile env p name))
    (hsupplied : Supplied s (.makeFile env p name))
    (hrun : ParchFS.makeFile env p name s = .ok (no, t)) :
    no = tree.size + 1 ∧ ∃ tree' : NumberedTree DEntry, tree'.size = tree.size + 1 ∧
      Populated base tree' t := by
  have hroom := h.room hsupplied
  rw [Op.demand] at hroom
  obtain ⟨hpos, hle, hlast, hdir, hlen⟩ := h.parent hbelow
  obtain ⟨hno, heff, -⟩ :=
    (makeFile_supplied h.inodes.owned hlast hpos hle hdir hlen hroom).of_ok hrun
  exact ⟨hno, h.grow hbelow rfl (created_of_makeFile heff h.inodes.owned hlast)⟩

end Populated

/-- Every run of supplied creations makes a tree. -/
theorem Reached.populated (hstart : Populated base NumberedTree.leafless u)
    (h : Reached (fun made s op => BelowDirectory made s op ∧ Supplied s op) u made s) :
    ∃ tree : NumberedTree DEntry, made = numbers tree.size ∧ Populated base tree s := by
  induction h with
  | new => exact ⟨_, rfl, hstart⟩
  | makeDir _ allowed hrun ih =>
      obtain ⟨tree, rfl, htree⟩ := ih
      obtain ⟨rfl, tree', hsize, htree'⟩ := htree.makeDir allowed.1 allowed.2 hrun
      exact ⟨tree', by rw [hsize, numbers], htree'⟩
  | makeFile _ allowed hrun ih =>
      obtain ⟨tree, rfl, htree⟩ := ih
      obtain ⟨rfl, tree', hsize, htree'⟩ := htree.makeFile allowed.1 allowed.2 hrun
      exact ⟨tree', by rw [hsize, numbers], htree'⟩

/-! ## Every run -/

section Runs

variable {bin : MMAPBinContent} {lines : List (List Char)} {syms : Symbols}

/-- The namespace is a tree in every state that creations below directories reach, as long
as each finds the blocks that it needs in front of the metadata. -/
theorem namespace_isTree (hread : Symbols.read env lines = .ok syms)
    (hrun : construct env bin lines = .ok u) (hroot : rootBlkNo (ofSymbols bin syms) < 0x7FDDE)
    (hreached : Reached (fun made s op => BelowDirectory made s op ∧ Supplied s op) u made s) :
    ∃ es, IsTree made es s := by
  obtain ⟨tree, rfl, htree⟩ :=
    hreached.populated (populated_of_init (init_of_construct hread hrun) hroot)
  exact ⟨dirEntries tree, htree.inodes.isTree⟩

/-- A new directory below the root of the sample volume. -/
theorem exists_reached_sample : ∃ u t, construct blankEnv blankImage sampleLines = .ok u ∧
    Reached (fun made s op => BelowDirectory made s op ∧ Supplied s op) u [2, 1] t := by
  obtain ⟨u, hrun, hsample⟩ := exists_sampleVolume
  have hbudget := hsample.flat.budget
  have hcost : blockCost (128 * (0 + 2)) = 1 := rfl
  have hstart := populated_of_init (init_of_construct sample_read hrun) (by decide)
  obtain ⟨no, t, hmake⟩ := hsample.holdsDir.exists_makeDir blankEnv hsample.flat.owned (by omega)
    (by omega) le_rfl (List.cons_ne_nil _ _) (by decide) (by omega)
    (show ['a'.toUInt8].length ≤ 118 by decide)
  have hbelow : BelowDirectory (numbers 1) u (.makeDir blankEnv 1 ['a'.toUInt8]) :=
    ⟨by decide, hsample.holdsDir.type_eq, by decide⟩
  have hsupplied : Supplied u (.makeDir blankEnv 1 ['a'.toUInt8]) := by
    refine Or.inl ?_
    have hreserve :
        reserveStart (ofSymbols blankImage (layout 0x80200000 0xffdde000)) ≤ 0x7FDDE := by decide
    rw [hstart.state]
    exact hreserve
  obtain ⟨rfl, -⟩ := hstart.makeDir hbelow hsupplied hmake
  exact ⟨u, t, hrun, .makeDir .new ⟨hbelow, hsupplied⟩ hmake⟩

theorem namespace_isTree_sample : ∃ u t, construct blankEnv blankImage sampleLines = .ok u ∧
    Reached (fun made s op => BelowDirectory made s op ∧ Supplied s op) u [2, 1] t ∧
      ∃ es, IsTree [2, 1] es t := by
  obtain ⟨u, t, hrun, hreached⟩ := exists_reached_sample
  exact ⟨u, t, hrun, hreached, namespace_isTree sample_read hrun (by decide) hreached⟩

/-- When the root takes the page of the inode bitmap, its entry `.` is written over the
bitmap, and the bit of the root is clear. -/
theorem Initial.not_isTree (h : Initial base u) (hblk : rootBlkNo base = 0x7FFDE) :
    ¬ ∃ es, IsTree [rootInode] es u := by
  rintro ⟨es, htree⟩
  have hmem : rootInode ∈ [rootInode] := List.mem_singleton_self _
  have hdir := h.root_fields.1
  obtain ⟨d, hslot, hno, -⟩ := htree.dot rootInode hmem hdir
  have hbit := htree.used rootInode hmem hdir d (List.mem_of_getElem? hslot)
  rw [hno] at hbit
  obtain ⟨s, v, -, -, rfl⟩ := h.memory
  have hlen := (dotEntry rootInode).length_bytes
  have hbyte : rootMem v.mem (rootBlkNo base) 0x7FFDE000 = 1 := by
    rw [hblk, rootMem, Mem.copy_of_notMem (by omega), Mem.copy_of_mem (by omega) (by omega)]
    rfl
  have hclear : inodeBit (rootMem v.mem (rootBlkNo base)) rootInode = false := by
    have haddr : inodeBitmap + rootInode / 8 = 0x7FFDE000 := by
      simp only [inodeBitmap, rootInode]
    rw [inodeBit, Mem.bit, haddr, hbyte]
    decide
  exact Bool.false_ne_true (hclear.symm.trans hbit)

/-- A kernel that ends below the inode bitmap: the constructor accepts it. -/
theorem not_namespace_isTree : ∃ u,
    construct blankEnv blankImage (symbolLines "fffdd000".toList "fffe0000".toList) = .ok u ∧
      Reached BelowDirectory u [rootInode] u ∧ ¬ ∃ es, IsTree [rootInode] es u := by
  have haccepted : Accepted (ofSymbols blankImage (layout 0xfffdd000 0xfffe0000)) := by
    refine ⟨⟨rfl, rfl, ?_, ?_⟩, ?_, ?_, ?_, ?_, ?_, ?_⟩ <;> decide
  obtain ⟨u, hrun, hu⟩ := exists_init haccepted
  exact ⟨u, construct_eq rfl hrun, .new, hu.not_isTree (by decide)⟩

end Runs

end ParchTestbench
