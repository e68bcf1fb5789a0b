import ParchTestbench.ParchFS.TreeCopy
import ParchTestbench.ParchFS.FileContents

/-!
# ParchFS: the image of a host tree

What a reader of the image finds: it starts at the root, reads the entries of a directory
and the bytes of a file through `get_blkno`, and compares them with the host tree.

Main results:

- Theorem `HostDir.Stored.found`: what has been copied is found.
- Theorem `buildFaithful_iff`: on a layout of the linker script every build of a host tree
  is faithful exactly when the reserve begins behind the first page.
-/

namespace ParchTestbench

open ParchFS Program
open WriteLog (extent lastByte)

variable {lo hi last i p o : Nat} {base s t u : ParchFS} {env : Env} {es : List DEntry}
  {name contents : List UInt8} {tree : HostDir} {b : UInt8}

/-! ## Reading the image -/

/-- `get_blkno` leads to byte `b` at offset `o` of inode `i`. -/
def ReadsByte (s : ParchFS) (i o : Nat) (b : UInt8) : Prop :=
  ∃ blk, INode.getBlkno i o false s = .ok (blk, s) ∧ blk ≠ 0 ∧ s.mem (4096 * blk + o % 4096) = b

/-- Inode `i` is a directory, and its slots hold the entries `es`. -/
structure ReadsDir (s : ParchFS) (i : Nat) (es : List DEntry) : Prop where
  type_eq : fileType s.mem i = FType.DIR.code
  size_eq : fileSize s.mem i = 128 * es.length
  byte : ∀ j d, es[j]? = some d → ∀ k b, d.bytes[k]? = some b → ReadsByte s i (128 * j + k) b

/-- Inode `i` is a regular file with the given contents. -/
structure ReadsFile (s : ParchFS) (i : Nat) (contents : List UInt8) : Prop where
  type_eq : fileType s.mem i = FType.REGULAR.code
  size_eq : fileSize s.mem i = contents.length
  byte : ∀ o b, contents[o]? = some b → ReadsByte s i o b

/-- The entry has this name and type. -/
structure NamedBy (d : DEntry) (name : List UInt8) (ty : FType) : Prop where
  type_eq : d.fType = ty
  len_eq : d.nameLen = name.length
  name_eq : (List.ofFn d.fName).take d.nameLen = name

/-- The entries `es` of directory `i` are those of the host directory, no more and no less,
and below them lies what lies below the entries of the host directory. -/
def Found (s : ParchFS) : HostDir → Nat → List DEntry → Prop
  | .nil, _, es => es = []
  | .dir name entries rest, i, es => ∃ d es', es = d :: es' ∧ NamedBy d name .DIR ∧
      (∃ sub, ReadsDir s d.inode (dots d.inode i ++ sub) ∧ Found s entries d.inode sub) ∧
        Found s rest i es'
  | .file name contents rest, i, es => ∃ d es', es = d :: es' ∧ NamedBy d name .REGULAR ∧
      ReadsFile s d.inode contents ∧ Found s rest i es'

/-- The image shows the host tree below the root, which is its own parent. -/
def Faithful (tree : HostDir) (s : ParchFS) : Prop :=
  ∃ es, ReadsDir s rootInode (dots rootInode rootInode ++ es) ∧ Found s tree rootInode es

/-! ## What is held is read -/

theorem readsByte_content (hown : Ownership lo hi last s) (hi' : i ≤ last)
    (ho : o ≤ fileSize s.mem i) (hk : o / 4096 < 1049616) (hv : fileBlk s.mem i (o / 4096) ≠ 0) :
    ReadsByte s i o (content s.mem i o) :=
  ⟨_, getBlkno_lookup hown hi' ho hk hv, hv, (content_of_mapped hk hv).symm⟩

theorem HoldsDir.readsDir (h : HoldsDir i es s) (hown : Ownership lo hi last s)
    (hi' : i ≤ last) : ReadsDir s i es := by
  refine ⟨h.type_eq, h.size_eq, fun j d hj k b hk => ?_⟩
  have hlt := h.size_lt
  have hjlen := (List.getElem?_eq_some_iff.mp hj).1
  have hklen := (List.getElem?_eq_some_iff.mp hk).1
  rw [d.length_bytes] at hklen
  have hv := h.mapped (List.ne_nil_of_length_pos (by omega)) ((128 * j + k) / 4096) (by omega)
  have hread := readsByte_content hown hi' (by rw [h.size_eq]; omega) (by omega) hv
  have hbyte := h.content_entry hj hklen
  rw [hk] at hbyte
  rwa [← Option.some.inj hbyte]

theorem HoldsFile.readsFile (h : HoldsFile i [(0, contents)] s) (hown : Ownership lo hi last s)
    (hi' : i ≤ last) : ReadsFile s i contents := by
  have hextent : extent [(0, contents)] = contents.length :=
    (Nat.zero_max _).trans (Nat.zero_add _)
  refine ⟨h.type_eq, h.size_eq.trans hextent, fun o b hb => ?_⟩
  obtain ⟨ho, hval⟩ := List.getElem?_eq_some_iff.mp hb
  obtain ⟨blk, hget, hne, hbyte⟩ := h.lookup_eq hown hi' (by rwa [hextent])
  refine ⟨blk, hget, hne, ?_⟩
  have hcovers : WriteLog.Covers (0, contents) o := ⟨Nat.zero_le o, by rwa [Nat.zero_add]⟩
  have hlast : lastByte [(0, contents)] o = contents[o - 0]?.getD 0 := by
    unfold lastByte
    rw [List.filter_cons_of_pos (by exact decide_eq_true hcovers)]
    rfl
  rw [hbyte, hlast, Nat.sub_zero, hb, Option.getD_some]

theorem namedBy_of_nameField {d : DEntry} {old : Fin 118 → UInt8} {ty : FType}
    (hlen : name.length ≤ 118) (htype : d.fType = ty) (hname : d.nameLen = name.length)
    (hfield : d.fName = nameField name old) : NamedBy d name ty := by
  refine ⟨htype, hname, ?_⟩
  rw [hname, hfield]
  refine List.ext_getElem ?_ fun k hk hk' => ?_
  · rw [List.length_take, List.length_ofFn, min_eq_left hlen]
  · rw [List.getElem_take, List.getElem_ofFn, nameField, List.getElem?_eq_getElem hk']
    rfl

/-- What has been copied is found. -/
theorem HostDir.Stored.found (h : tree.Stored env s p last) (hfit : tree.NamesFit) {n : Nat}
    (hown : Ownership lo hi n s) (hn : last + tree.count ≤ n) :
    Found s tree p (tree.listing env last) := by
  induction tree generalizing p last with
  | nil => rfl
  | dir name entries rest ihEntries ihRest =>
      obtain ⟨hdir, hentries, hrest⟩ := h
      obtain ⟨hname, hfitEntries, hfitRest⟩ := hfit
      rw [HostDir.count] at hn
      refine ⟨_, _, rfl, namedBy_of_nameField hname rfl rfl rfl,
        ⟨entries.listing env (last + 1), ?_, ?_⟩, ?_⟩
      · exact hdir.readsDir hown (by omega)
      · exact ihEntries hentries hfitEntries (by omega)
      · exact ihRest hrest hfitRest (by omega)
  | file name contents rest ih =>
      obtain ⟨hfile, hrest⟩ := h
      rw [HostDir.count] at hn
      refine ⟨_, _, rfl, namedBy_of_nameField hfit.1 rfl rfl rfl, ?_, ?_⟩
      · exact hfile.readsFile hown (by omega)
      · exact ih hrest hfit.2 (by omega)

theorem Copied.faithful (h : Copied lo hi 1 base env tree 1 (dots 1 1) s t)
    (hfit : tree.NamesFit) : Faithful tree t :=
  ⟨_, h.dir.readsDir h.healthy.owned (by omega), h.stored.found hfit h.healthy.owned le_rfl⟩

/-! ## Host trees -/

namespace HostDir

/-- The names in a host directory. -/
def names : HostDir → List (List UInt8)
  | nil => []
  | dir name _ rest => name :: rest.names
  | file name _ rest => name :: rest.names

/-- Names have 1 to 118 bytes, and no two entries of a directory have the same. -/
def WellFormed : HostDir → Prop
  | nil => True
  | dir name entries rest => (1 ≤ name.length ∧ name.length ≤ 118 ∧ name ∉ rest.names) ∧
      entries.WellFormed ∧ rest.WellFormed
  | file name _ rest => (1 ≤ name.length ∧ name.length ≤ 118 ∧ name ∉ rest.names) ∧
      rest.WellFormed

theorem WellFormed.namesFit (h : tree.WellFormed) : tree.NamesFit := by
  induction tree with
  | nil => trivial
  | dir name entries rest ihEntries ihRest => exact ⟨h.1.2.1, ihEntries h.2.1, ihRest h.2.2⟩
  | file name contents rest ih => exact ⟨h.1.2.1, ih h.2⟩

end HostDir

section FlatTrees

variable {files : List (List UInt8 × List UInt8)}

theorem FilesMade.names_tree : (FilesMade.tree files).names = files.map Prod.fst := by
  induction files with
  | nil => rfl
  | cons p files ih => exact congrArg (p.1 :: ·) ih

theorem FilesMade.count_tree : (FilesMade.tree files).count = files.length := by
  induction files with
  | nil => rfl
  | cons p files ih => exact congrArg (· + 1) ih

theorem FilesMade.wellFormed_tree (hnodup : (files.map Prod.fst).Nodup)
    (hlen : ∀ p ∈ files, 1 ≤ p.1.length ∧ p.1.length ≤ 118) :
    (FilesMade.tree files).WellFormed := by
  induction files with
  | nil => trivial
  | cons p files ih =>
      obtain ⟨hnew, hrest⟩ := List.nodup_cons.mp hnodup
      obtain ⟨hone, hfit⟩ := hlen p List.mem_cons_self
      refine ⟨⟨hone, hfit, ?_⟩, ih hrest fun q hq => hlen q (List.mem_cons_of_mem _ hq)⟩
      rwa [FilesMade.names_tree]

end FlatTrees

/-! ## Builds -/

section Builds

variable {bin : MMAPBinContent} {lines : List (List Char)} {syms : Symbols}

/-- A build can only stop with a full block bitmap, and what it returns shows the tree. -/
structure BuildFaithful (env : Env) (bin : MMAPBinContent) (lines : List (List Char))
    (tree : HostDir) : Prop where
  abort : ∀ e, build env bin lines tree = .error e → e = blockBitmapFull
  image : ∀ t, build env bin lines tree = .ok t → Faithful tree t

/-- A build stops in the constructor or while the tree is copied. -/
theorem error_of_build {e : Abort} (hread : Symbols.read env lines = .ok syms)
    (hrun : build env bin lines tree = .error e) :
    init env (ofSymbols bin syms) = .error e ∨
      ∃ s, construct env bin lines = .ok s ∧ makeFs env tree rootInode s = .error e := by
  rcases error_of_except_error hrun with hconstruct | ⟨s, hconstruct, hrest⟩
  · left
    rcases error_of_except_error hconstruct with hbad | ⟨syms', hread', hbody⟩
    · rw [hread] at hbad
      cases hbad
    rw [hread] at hread'
    cases hread'
    rcases error_of_except_error hbody with hinit | ⟨r, -, hlast⟩
    · exact hinit
    · cases hlast
  · right
    rcases error_of_except_error hrest with hcopy | ⟨r, -, hlast⟩
    · exact ⟨s, hconstruct, hcopy⟩
    · cases hlast

/-- A reserve behind the first page: every build is faithful. -/
theorem LinkedLayout.buildFaithful (hlayout : LinkedLayout syms)
    (hread : Symbols.read env lines = .ok syms) (hsize : bin.size = 0x80000000)
    (hpage : 0x80001000 ≤ syms.sReserve) (htree : tree.WellFormed) (hcount : tree.count ≤ 8190) :
    BuildFaithful env bin lines tree := by
  have hreserve := hlayout.reserveStart_le bin hpage
  have hfit := htree.namesFit
  refine ⟨fun e hrun => ?_, fun t hrun => ?_⟩
  · rcases error_of_build hread hrun with hinit | ⟨s, hconstruct, hcopy⟩
    · have hmapped : 0x80000000 ≤ (ofSymbols bin syms).mapped := by
        show 0x80000000 ≤ 4096 * ((bin.size + 4095) / 4096)
        omega
      have hblk := hlayout.pa2blkno_eKernel bin
      have hlt := hlayout.lt_sReserve
      have hle := hlayout.sReserve_le
      have hkernel : (ofSymbols bin syms).eKernel = syms.eKernel := rfl
      have hroot : rootBlkNo (ofSymbols bin syms) = (syms.eKernel - 0x80000000) / 4096 + 1 := by
        rw [rootBlkNo, hkernel, hblk]
      refine ((init_outcome (hlayout.checked bin) hmapped ?_).of_error hinit).2 fun hbefore => ?_
      · rw [hkernel, hblk]
        omega
      · omega
    · obtain ⟨lo, hi, hhealthy, hdir⟩ := start_of_construct hread hconstruct (by omega)
      exact (makeFs_outcome tree hhealthy (by decide) le_rfl hdir (by omega)).of_error hcopy hfit
  · obtain ⟨s, hconstruct, hcopy⟩ := exists_of_build hrun
    obtain ⟨lo, hi, hhealthy, hdir⟩ := start_of_construct hread hconstruct (by omega)
    exact ((makeFs_outcome tree hhealthy (by decide) le_rfl hdir (by omega)).of_ok hcopy).faithful
      hfit

/-! ## A tree that uses up the pool -/

theorem fillerName_injective {j k : Nat} (hj : j < 4000) (hk : k < 4000)
    (heq : fillerName j = fillerName k) : j = k := by
  obtain ⟨hfirst, hrest⟩ := List.cons.inj heq
  obtain ⟨hsecond, -⟩ := List.cons.inj hrest
  have hone := congrArg UInt8.toNat hfirst
  have htwo := congrArg UInt8.toNat hsecond
  simp only [UInt8.toNat_ofNat'] at hone htwo
  omega

theorem map_fst_fillers (len n k : Nat) :
    (fillers len n k).map Prod.fst = (List.range' k n).map fillerName := by
  induction n generalizing k with
  | zero => rfl
  | succ n ih =>
      rw [fillers, List.map_cons, ih, List.range'_succ, List.map_cons]

/-- The host tree of the files that run past the pool. -/
def exhaustingTree : HostDir := FilesMade.tree (exhaustingFiles ++ [(fillerName 504, [0])])

theorem wellFormed_exhaustingTree : exhaustingTree.WellFormed := by
  have hnames : (exhaustingFiles ++ [(fillerName 504, [0])]).map Prod.fst =
      (List.range' 0 505).map fillerName := by
    have hfirst : List.range' 0 503 ++ List.range' 503 1 = List.range' 0 504 :=
      List.range'_append_1
    have hsecond : List.range' 0 504 ++ List.range' 504 1 = List.range' 0 505 :=
      List.range'_append_1
    rw [exhaustingFiles, List.map_append, List.map_append, map_fst_fillers, map_fst_fillers,
      ← List.map_append, hfirst, ← hsecond, List.map_append]
    rfl
  refine FilesMade.wellFormed_tree ?_ fun p hp => ?_
  · rw [hnames]
    refine List.Nodup.map_on (fun j hj k hk heq => ?_) List.nodup_range'
    rw [List.mem_range'_1] at hj hk
    exact fillerName_injective (by omega) (by omega) heq
  · have hmem : p.1 ∈ (List.range' 0 505).map fillerName := hnames ▸ List.mem_map_of_mem hp
    obtain ⟨k, -, hk⟩ := List.mem_map.mp hmem
    rw [← hk]
    exact ⟨show 1 ≤ 2 by omega, show 2 ≤ 118 by omega⟩

theorem count_exhaustingTree : exhaustingTree.count = 505 := by
  rw [exhaustingTree, FilesMade.count_tree, List.length_append, length_exhaustingFiles]
  rfl

/-- A reserve in the first page: the image of this tree has no root directory. -/
theorem LinkedLayout.not_buildFaithful (hlayout : LinkedLayout syms)
    (hread : Symbols.read env lines = .ok syms) (hsize : bin.size = 0x80000000)
    (hpage : syms.sReserve < 0x80001000) : ¬ BuildFaithful env bin lines exhaustingTree := by
  obtain ⟨hwrap, hfirst⟩ := hlayout.reserveStart_wrapped bin hpage
  have hkernel : pa2blkno (ofSymbols bin syms) (ofSymbols bin syms).eKernel = 0 := hfirst
  have hmapped : 0x80000000 ≤ (ofSymbols bin syms).mapped := by
    show 0x80000000 ≤ 4096 * ((bin.size + 4095) / 4096)
    omega
  have hroot : rootBlkNo (ofSymbols bin syms) = 1 := by rw [rootBlkNo, hkernel]
  have haccepted : Accepted (ofSymbols bin syms) :=
    ⟨hlayout.checked bin, hmapped, by omega, by omega, by omega, by omega, by omega⟩
  obtain ⟨u, hinit, -⟩ : ∃ u, init env _ = .ok ((), u) ∧ Initial _ u := exists_init haccepted
  obtain ⟨w, hw⟩ := hlayout.exists_brink hinit hpage
  intro hfaithful
  obtain ⟨es, hdir, -⟩ := hfaithful.image _
    (build_eq (construct_eq hread hinit) hw.filesMade.makeFs_eq)
  have htype := hdir.type_eq
  rw [mem_withMem, rootInode, fileType_overrunMem] at htype
  exact absurd htype (by decide)

/-- On a layout of the linker script every build of a host tree is faithful exactly when
the reserve begins behind the first page. -/
theorem buildFaithful_iff (hread : Symbols.read env lines = .ok syms)
    (hlayout : LinkedLayout syms) (hsize : bin.size = 0x80000000) :
    (∀ tree : HostDir, tree.WellFormed → tree.count ≤ 8190 → BuildFaithful env bin lines tree) ↔
      0x80001000 ≤ syms.sReserve := by
  constructor
  · intro hall
    by_contra hpage
    refine hlayout.not_buildFaithful hread hsize (Nat.not_le.mp hpage) ?_
    exact hall _ wellFormed_exhaustingTree (by rw [count_exhaustingTree]; omega)
  · intro hpage tree htree hcount
    exact hlayout.buildFaithful hread hsize hpage htree hcount

theorem buildFaithful_iff_sample :
    (∀ tree : HostDir, tree.WellFormed → tree.count ≤ 8190 →
      BuildFaithful blankEnv blankImage sampleLines tree) ↔
      0x80001000 ≤ (layout 0x80200000 0xffdde000).sReserve :=
  buildFaithful_iff sample_read sample_linked rfl

/-- With an empty kernel and a one-byte gap, the build of the tree that uses up the pool
returns an image without a root directory. -/
theorem not_buildFaithful_wrapped : LinkedLayout (layout 0x80000000 0x80000001) ∧
    exhaustingTree.WellFormed ∧ exhaustingTree.count = 505 ∧
      ¬ BuildFaithful blankEnv blankImage wrappedLines exhaustingTree :=
  ⟨wrapped_linked, wellFormed_exhaustingTree, count_exhaustingTree,
    wrapped_linked.not_buildFaithful wrapped_read rfl (by decide)⟩

end Builds

end ParchTestbench
