import ParchTestbench.ParchFS.Namespace
import Mathlib.Algebra.BigOperators.Group.Finset.Piecewise
import Mathlib.Data.Finset.Max

/-!
# ParchFS: link counts

`make_dir` sets the link count of the new directory to 3 once and for all, and nothing ever
counts the entries.  This file counts them: a file is named once, a directory twice and once
more by each of its sub-directories.

Main results:

- Theorem `Namespace.references_eq`: the number of entries that name an inode.
- Theorem `Namespace.linkCount_eq_iff`: the link count is right for files and for directories
  with one sub-directory.
- Theorem `linksExact_never`: in no state are all link counts right.
-/

namespace ParchTestbench

open ParchFS Program

variable {lo hi i j : Nat} {base s u : ParchFS} {env : Env} {es : List DEntry} {made : List Nat}
  {tree : NumberedTree DEntry}

/-- The inode numbers in the slots of directory `j`. -/
def slotInodes (s : ParchFS) (j : Nat) : List Nat :=
  (List.range (fileSize s.mem j / 128)).map (entryInode (content s.mem j))

/-- The directories among the inodes. -/
def directories (made : List Nat) (s : ParchFS) : Finset Nat :=
  made.toFinset.filter fun j => fileType s.mem j = FType.DIR.code

/-- The number of entries, over all directories, that name inode `i`. -/
def references (made : List Nat) (s : ParchFS) (i : Nat) : Nat :=
  ∑ j ∈ directories made s, (slotInodes s j).count i

/-- All link counts are right. -/
def LinksExact (made : List Nat) (s : ParchFS) : Prop :=
  ∀ i ∈ made, linkCount s.mem i = references made s i

theorem HoldsDir.slotInodes_eq (h : HoldsDir j es s) :
    slotInodes s j = es.map DEntry.inode := by
  have hlen : fileSize s.mem j / 128 = es.length := by
    rw [h.size_eq]
    omega
  rw [slotInodes, hlen]
  refine List.ext_getElem (by simp) fun l hl hl' => ?_
  rw [List.length_map] at hl'
  rw [List.getElem_map, List.getElem_map, List.getElem_range]
  exact h.entryInode_eq (List.getElem?_eq_getElem hl')

theorem mem_directories {n k : Nat} : k ∈ directories (numbers n) s ↔
    (0 < k ∧ k ≤ n) ∧ fileType s.mem k = FType.DIR.code := by
  rw [directories, Finset.mem_filter, List.mem_toFinset, mem_numbers]

/-- The sub-directories of directory `i`. -/
def subdirectories (tree : NumberedTree DEntry) (s : ParchFS) (i : Nat) : Finset Nat :=
  (directories (numbers tree.size) s).filter fun k => 1 < k ∧ tree.parent k = i

theorem mem_subdirectories {k : Nat} : k ∈ subdirectories tree s i ↔
    ((0 < k ∧ k ≤ tree.size) ∧ fileType s.mem k = FType.DIR.code) ∧ 1 < k ∧ tree.parent k = i := by
  rw [subdirectories, Finset.mem_filter, mem_directories]

namespace Namespace

/-- A directory names itself, its parent and its children. -/
theorem count_slotInodes (h : Namespace lo hi tree s) (hj : 0 < j) (hj' : j ≤ tree.size)
    (hdir : fileType s.mem j = FType.DIR.code) (hi : i ≤ tree.size) :
    (slotInodes s j).count i = (if j = i then 1 else 0) + (if tree.parent j = i then 1 else 0) +
      if 1 < i ∧ tree.parent i = j then 1 else 0 := by
  have hchildren : (tree.children j).map (DEntry.inode ∘ Prod.snd) =
      (tree.children j).map Prod.fst :=
    List.map_congr_left fun e he => (h.leaf e.1 e.2 j he).1
  have hcount : ((tree.children j).map Prod.fst).count i =
      if 1 < i ∧ tree.parent i = j then 1 else 0 := by
    split
    · rename_i hparent
      obtain ⟨d, hd⟩ := NumberedTree.exists_mem_children hparent.1 hi
      rw [hparent.2] at hd
      exact List.count_eq_one_of_mem NumberedTree.nodup_children (List.mem_map.mpr ⟨_, hd, rfl⟩)
    · rename_i hother
      refine List.count_eq_zero_of_not_mem fun hmem => hother ?_
      obtain ⟨⟨k, d⟩, hd, rfl⟩ := List.mem_map.mp hmem
      obtain ⟨hlt, -, hparent⟩ := NumberedTree.parent_of_mem hd
      exact ⟨hlt, hparent⟩
  rw [(h.dirs j hj hj' hdir).slotInodes_eq, dirEntries, List.map_append, List.map_map, hchildren,
    List.count_append, hcount]
  simp only [dots, dotEntry, dotDotEntry, List.map_cons, List.map_nil, List.count_cons,
    List.count_nil, beq_iff_eq, Nat.zero_add]
  omega

/-- The directories with parent `i`: its sub-directories, and the root, which is its own
parent. -/
theorem card_parents (h : Namespace lo hi tree s) :
    ((directories (numbers tree.size) s).filter fun k => tree.parent k = i).card =
      (subdirectories tree s i).card + if i = 1 then 1 else 0 := by
  have hone : 1 ∈ directories (numbers tree.size) s :=
    mem_directories.mpr ⟨⟨Nat.one_pos, NumberedTree.size_pos⟩, h.root⟩
  have hnot : 1 ∉ subdirectories tree s i := fun hmem =>
    Nat.lt_irrefl 1 (mem_subdirectories.mp hmem).2.1
  split
  · rename_i hroot
    subst hroot
    rw [← Finset.card_insert_of_notMem hnot]
    congr 1
    ext k
    rw [Finset.mem_insert, mem_subdirectories, Finset.mem_filter, mem_directories]
    constructor
    · rintro ⟨hdir, hparent⟩
      by_cases hk : k = 1
      · exact Or.inl hk
      · exact Or.inr ⟨hdir, by omega, hparent⟩
    · rintro (rfl | ⟨hdir, -, hparent⟩)
      · exact ⟨mem_directories.mp hone, rfl⟩
      · exact ⟨hdir, hparent⟩
  · rename_i hroot
    rw [Nat.add_zero, subdirectories]
    congr 1
    refine Finset.filter_congr fun k hk => ⟨fun hc => ⟨?_, hc⟩, fun hc => hc.2⟩
    by_contra hle
    obtain rfl : k = 1 := by
      have hkpos := (mem_directories.mp hk).1.1
      omega
    exact hroot hc.symm

/-- One entry of a directory names an inode as its child, unless the inode is the root. -/
theorem sum_child (h : Namespace lo hi tree s) (hi' : i ≤ tree.size) :
    (∑ k ∈ directories (numbers tree.size) s, if 1 < i ∧ tree.parent i = k then 1 else 0) =
      if 1 < i then 1 else 0 := by
  by_cases hlt : 1 < i
  · obtain ⟨d, hd⟩ := NumberedTree.exists_mem_children hlt hi'
    obtain ⟨hpos, hparent⟩ := NumberedTree.parent_lt hlt hi'
    simp only [hlt, true_and]
    rw [Finset.sum_ite_eq, if_pos (mem_directories.mpr ⟨⟨hpos, by omega⟩, (h.leaf i d _ hd).2.2⟩)]
    rfl
  · rw [if_neg hlt]
    exact Finset.sum_eq_zero fun k _ => if_neg fun hc => hlt hc.1

/-- A file has no children. -/
theorem subdirectories_file (h : Namespace lo hi tree s)
    (hdir : ¬ fileType s.mem i = FType.DIR.code) : subdirectories tree s i = ∅ := by
  refine Finset.eq_empty_of_forall_notMem fun k hk => hdir ?_
  rw [mem_subdirectories] at hk
  obtain ⟨⟨⟨-, hle⟩, -⟩, hlt, hparent⟩ := hk
  obtain ⟨e, he⟩ := NumberedTree.exists_mem_children hlt hle
  rw [← hparent]
  exact (h.leaf k e _ he).2.2

/-- A file is named once, a directory twice and once more by each sub-directory. -/
theorem references_eq (h : Namespace lo hi tree s) (hi : 0 < i) (hi' : i ≤ tree.size) :
    references (numbers tree.size) s i =
      if fileType s.mem i = FType.DIR.code then 2 + (subdirectories tree s i).card else 1 := by
  have hsplit : references (numbers tree.size) s i =
      ∑ j ∈ directories (numbers tree.size) s,
        ((if j = i then 1 else 0) + (if tree.parent j = i then 1 else 0) +
          if 1 < i ∧ tree.parent i = j then 1 else 0) :=
    Finset.sum_congr rfl fun j hj => by
      obtain ⟨⟨hpos, hle⟩, hdir⟩ := mem_directories.mp hj
      exact h.count_slotInodes hpos hle hdir hi'
  have hself : i ∈ directories (numbers tree.size) s ↔ fileType s.mem i = FType.DIR.code :=
    mem_directories.trans (and_iff_right ⟨hi, hi'⟩)
  rw [hsplit, Finset.sum_add_distrib, Finset.sum_add_distrib, Finset.sum_ite_eq',
    ← Finset.card_filter, h.card_parents, h.sum_child hi']
  simp only [hself]
  by_cases hdir : fileType s.mem i = FType.DIR.code
  · rw [if_pos hdir, if_pos hdir]
    split <;> split <;> omega
  · have hroot : i ≠ 1 := fun hc => hdir (hc ▸ h.root)
    rw [if_neg hdir, if_neg hdir, h.subdirectories_file hdir, if_neg hroot,
      if_pos (show 1 < i by omega)]
    rfl

/-- The link count is right for files and for directories with one sub-directory. -/
theorem linkCount_eq_iff (h : Namespace lo hi tree s) (hi : 0 < i) (hi' : i ≤ tree.size) :
    linkCount s.mem i = references (numbers tree.size) s i ↔
      fileType s.mem i = FType.DIR.code → (subdirectories tree s i).card = 1 := by
  rw [h.links i hi hi', h.references_eq hi hi']
  by_cases hdir : fileType s.mem i = FType.DIR.code
  · rw [if_pos hdir, if_pos hdir]
    omega
  · rw [if_neg hdir, if_neg hdir]
    exact ⟨fun _ hc => absurd hc hdir, fun _ => rfl⟩

/-- The youngest directory has no sub-directory. -/
theorem not_linksExact (h : Namespace lo hi tree s) : ¬ LinksExact (numbers tree.size) s := by
  intro hexact
  have hone : 1 ∈ directories (numbers tree.size) s :=
    mem_directories.mpr ⟨⟨Nat.one_pos, NumberedTree.size_pos⟩, h.root⟩
  obtain ⟨i, hi, hmax⟩ := (directories (numbers tree.size) s).exists_max_image id ⟨1, hone⟩
  obtain ⟨⟨hpos, hle⟩, hdir⟩ := mem_directories.mp hi
  have hcard := (h.linkCount_eq_iff hpos hle).mp (hexact i (mem_numbers.mpr ⟨hpos, hle⟩)) hdir
  obtain ⟨k, hk⟩ := Finset.card_pos.mp (by rw [hcard]; exact Nat.one_pos)
  obtain ⟨hkdir, hlt, hparent⟩ := mem_subdirectories.mp hk
  have hbelow := (NumberedTree.parent_lt hlt hkdir.1.2).2
  have hle' : k ≤ i := hmax k (mem_directories.mpr hkdir)
  omega

end Namespace

/-! ## Every state -/

/-- The root of a new volume has two entries, wherever its block lies. -/
theorem Initial.not_linksExact (h : Initial base u) : ¬ LinksExact [rootInode] u := by
  intro hexact
  obtain ⟨hdir, hsize, hlinks⟩ := h.root_fields
  have hcount := hexact rootInode (List.mem_singleton_self _)
  have hone : directories [rootInode] u = {rootInode} := by
    rw [directories, List.toFinset_cons, List.toFinset_nil, insert_empty_eq,
      Finset.filter_singleton, if_pos hdir]
  have hlen : (slotInodes u rootInode).length = 2 := by
    rw [slotInodes, List.length_map, List.length_range, hsize]
  have hle := List.count_le_length (a := rootInode) (l := slotInodes u rootInode)
  rw [hlinks, references, hone, Finset.sum_singleton] at hcount
  omega

section Runs

variable {bin : MMAPBinContent} {lines : List (List Char)} {syms : Symbols}

/-- The link counts of a new volume are wrong, and they are wrong in every state that
creations reach that find the blocks they need in front of the metadata. -/
theorem linksExact_never (hread : Symbols.read env lines = .ok syms)
    (hrun : construct env bin lines = .ok u) :
    ¬ LinksExact [rootInode] u ∧ (rootBlkNo (ofSymbols bin syms) < 0x7FDDE → ∀ made s,
      Reached (fun made s op => BelowDirectory made s op ∧ Supplied s op) u made s →
        ¬ LinksExact made s) := by
  have hinit := init_of_construct hread hrun
  refine ⟨(initial_of_init hinit).not_linksExact, fun hroot made s hreached => ?_⟩
  obtain ⟨tree, rfl, htree⟩ := hreached.populated (populated_of_init hinit hroot)
  exact htree.inodes.not_linksExact

theorem linksExact_never_sample : ∃ u t, construct blankEnv blankImage sampleLines = .ok u ∧
    ¬ LinksExact [1] u ∧ ¬ LinksExact [2, 1] t := by
  obtain ⟨u, t, hrun, hreached⟩ := exists_reached_sample
  obtain ⟨hnew, hruns⟩ := linksExact_never sample_read hrun
  exact ⟨u, t, hrun, hnew, hruns (by decide) _ _ hreached⟩

/-- The link count of the root of the sample volume is wrong. -/
theorem not_linksExact_new : ∃ u, construct blankEnv blankImage sampleLines = .ok u ∧
    Reached (fun _ _ _ => True) u [rootInode] u ∧ ¬ LinksExact [rootInode] u := by
  obtain ⟨u, hrun⟩ := exists_sample
  exact ⟨u, hrun, .new,
    (initial_of_init (init_of_construct sample_read hrun)).not_linksExact⟩

end Runs

end ParchTestbench
