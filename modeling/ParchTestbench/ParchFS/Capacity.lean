import ParchTestbench.ParchFS.Sequential
import ParchTestbench.ParchFS.FaithfulImage
import Mathlib.Tactic.Ring

/-!
# ParchFS: the space that a host tree takes

The blocks that `make_fs` takes follow from the host tree alone: from the lengths of its files
and the numbers of entries of its directories.  Each file is written in one go, so it lies in
one piece, its index blocks between its data blocks.

Main results:

- Theorem `fileSpace_of_lt` and `fileSpace_of_ge`: the data blocks of a file by its length.
- Theorem `makeFs_sequential`: copying a tree takes its blocks, or there are fewer.
- Theorem `build_capacity`: a build returns exactly when the tree fits into the pool.
- Theorem `build_unfragmented`: in the image of a build every file lies in one piece.
-/

namespace ParchTestbench

open ParchFS Program
open WriteLog (extent)

variable {lo hi last i p e len : Nat} {base s t u : ParchFS} {env : Env} {n : Nat → Nat}
  {es : List DEntry} {name contents : List UInt8} {tree : HostDir} {err : Abort}

/-! ## Files -/

/-- The data blocks of a file that `len` bytes have been written to at once. -/
def fileSpace (len : Nat) : Nat := writtenTo 0 0 0 len

/-- Once the blocks up to the end are there, only the pieces in the double-indirect range take
another block each. -/
theorem writeGrown_eq {c off : Nat} (hlen : 0 < len) (hc : (off + len) / 4096 + 1 ≤ c) :
    writeGrown c off len = c + ((off + len - 1) / 4096 + 1 - max (off / 4096) 1040) := by
  induction hl : len using Nat.strong_induction_on generalizing c off len with
  | _ l ih =>
      subst hl
      have hcopy := INode.copyLen_pos off hlen
      have hle := copyLen_le_length off len
      have hblock := copyLen_le_block off len
      have hgrown : grownTo c off = if off / 4096 < 1040 then c else c + 1 := by
        unfold grownTo
        split <;> split <;> omega
      rw [writeGrown_of_pos _ _ hlen, hgrown]
      rcases Nat.eq_or_lt_of_le hle with hall | hmore
      · rw [hall, Nat.sub_self, writeGrown_zero]
        rw [hall] at hblock
        split <;> omega
      · -- the piece ends with its block
        have hcut : off % 4096 + INode.copyLen off len = 4096 := by
          by_cases hfit : blkSize - off % blkSize < len
          · rw [INode.copyLen, if_pos hfit]
            simp only [blkSize]
            omega
          · rw [INode.copyLen, if_neg hfit] at hmore
            omega
        have hnext : (off + INode.copyLen off len) / 4096 = off / 4096 + 1 := by omega
        have hend : off + INode.copyLen off len + (len - INode.copyLen off len) = off + len := by
          omega
        rw [ih _ (by omega) (by omega) (by rw [hend]; split <;> omega) rfl, hend, hnext]
        split <;> omega

theorem fileSpace_of_lt (h : len < 4259840) : fileSpace len = len / 4096 + 1 := by
  have hmod : (0 + len) % 2 ^ 64 = len := by rw [Nat.zero_add, Nat.mod_eq_of_lt (by omega)]
  have hgrown : grownTo 0 len = len / 4096 + 1 := by
    rw [grownTo_of_lt h]
    omega
  unfold fileSpace writtenTo
  rw [hmod, if_pos (Nat.zero_le _), hgrown]
  rcases Nat.eq_zero_or_pos len with rfl | hpos
  · rw [writeGrown_zero]
  · rw [writeGrown_eq hpos (by rw [Nat.zero_add])]
    omega

/-- In the double-indirect range there is the block behind the end, and one more for each
piece. -/
theorem fileSpace_of_ge (h : 4259840 ≤ len) (h' : len < 2 ^ 64) :
    fileSpace len = len / 4096 + 2 + ((len - 1) / 4096 + 1 - 1040) := by
  have hmod : (0 + len) % 2 ^ 64 = len := by rw [Nat.zero_add, Nat.mod_eq_of_lt h']
  have hgrown : grownTo 0 len = len / 4096 + 2 := by
    rw [grownTo_of_ge h]
    omega
  unfold fileSpace writtenTo
  rw [hmod, if_pos (Nat.zero_le _), hgrown, writeGrown_eq (by omega) (by rw [Nat.zero_add]; omega),
    Nat.zero_add, Nat.zero_div, max_eq_right (Nat.zero_le _)]

/-! ## Directories -/

/-- The data blocks of a directory of `k` entries. -/
def dirSpace (k : Nat) : Nat := k / 32 + 1

/-- The blocks that the entries take that follow the first `k` ones. -/
def growth (k m : Nat) : Nat := blocksFor (dirSpace (k + m)) - blocksFor (dirSpace k)

theorem dirSpace_le {k m : Nat} (h : k ≤ m) : blocksFor (dirSpace k) ≤ blocksFor (dirSpace m) := by
  refine blocksFor_le ?_
  unfold dirSpace
  omega

theorem growth_add {k m l : Nat} : growth k m + growth (k + m) l = growth k (m + l) := by
  have hone := dirSpace_le (show k ≤ k + m by omega)
  have htwo := dirSpace_le (show k + m ≤ k + m + l by omega)
  unfold growth
  rw [← Nat.add_assoc k m l]
  omega

/-- One more entry on a directory below the double-indirect range. -/
theorem scanned_dirSpace {k : Nat} (hk : 128 * (k + 1) < 4259840) :
    scanned (dirSpace k) (k + 1) = dirSpace (k + 1) := by
  rw [scanned_of_lt (by omega) hk]
  unfold dirSpace
  omega

/-- In a directory that holds its entries the first free slot is the one behind them. -/
theorem HoldsDir.firstFree (h : HoldsDir p es s) {j : Nat} (hj : FirstFree (content s.mem p) 0 j) :
    j = es.length :=
  h.first_free (fun l hl => hj.before l (Nat.zero_le l) hl) hj.empty

theorem HoldsDir.le_of_used (h : HoldsDir p es s) {j : Nat}
    (hused : ∀ l, l < j → entryInode (content s.mem p) l ≠ 0) : j ≤ es.length := by
  by_contra hlt
  exact hused es.length (by omega) (h.entryInode_of_ge le_rfl)

/-- What an entry lacks is lacking for one more entry. -/
theorem HoldsDir.shortage (h : HoldsDir p es s) (hsmall : 128 * (es.length + 1) < 4259840)
    (hn : n p = dirSpace es.length) {j c : Nat}
    (hused : ∀ l, l < j → entryInode (content s.mem p) l ≠ 0)
    (he : Shortage hi (blocksFor (n p)) (blocksFor (scanned (n p) (j + 1))) c err) :
    err = blockBitmapFull ∧ hi < c + growth es.length 1 := by
  have hle := h.le_of_used hused
  have hmono := he.mono (blocksFor_le (scanned_mono (n := n p) (Nat.succ_le_succ hle)))
  rw [hn, Nat.succ_eq_add_one, scanned_dirSpace hsmall] at hmono
  exact ⟨hmono.1, hmono.2⟩

/-! ## One entry -/

/-- Inode `i` lies in one piece: its data blocks follow each other, with the index blocks in
their places between them. -/
def Contiguous (s : ParchFS) (i : Nat) : Prop :=
  ∃ start, ∀ k, k < maxBlocks → fileBlk s.mem i k ≠ 0 →
    fileBlk s.mem i k = start + (dataSlot k).rank

theorem Contiguous.same (h : Contiguous s i) (hsame : SameInode i s t) : Contiguous t i := by
  obtain ⟨start, hstart⟩ := h
  refine ⟨start, fun k hk hv => ?_⟩
  rw [hsame.blk_eq k hk] at hv ⊢
  exact hstart k hk hv

/-- A file that has been filled from nothing lies in one piece. -/
theorem Takes.contiguous {c : Nat} (h : Takes lo hi last i 0 c e s t) : Contiguous t i := by
  refine ⟨e, fun k hk hv => ?_⟩
  have hvalid := dataSlot_valid hk
  have hlt := (h.packed.lt_iff hvalid).mp hv
  exact h.placed.fresh _ hvalid (Nat.zero_le _) hlt

theorem SameInode.fileBlocks_eq (h : SameInode i s t) :
    fileBlocks t.mem i = fileBlocks s.mem i := by
  unfold fileBlocks
  refine congrArg Finset.card (Finset.filter_congr fun k hk => ?_)
  rw [h.blk_eq k (Finset.mem_range.mp hk)]

/-- The volume is sequential with the cursor at `e`, directory `p` has the blocks of `k`
entries, and the files among the inodes behind `last` lie in one piece. -/
structure Extended (lo hi last last' : Nat) (base : ParchFS) (e p k : Nat) (t : ParchFS) :
    Prop where
  sequential : ∃ n, Sequential lo hi last' base n e t
  parent : fileBlocks t.mem p = dirSpace k
  contiguous : ∀ j, last < j → j ≤ last' → fileType t.mem j = FType.REGULAR.code → Contiguous t j

/-- What is put below `p` first stays as it is when more is put below `p`. -/
theorem Extended.append {mid last' e' k k' : Nat} (h : Extended lo hi last mid base e p k t)
    (h' : Extended lo hi mid last' base e' p k' u) (hp : p ≤ last)
    (hsame : ∀ j, j ≤ mid → j ≠ p → SameInode j t u) :
    Extended lo hi last last' base e' p k' u := by
  refine ⟨h'.sequential, h'.parent, fun j hj hj' htype => ?_⟩
  by_cases hold : j ≤ mid
  · have hkeep := hsame j hold (by omega)
    rw [hkeep.type_eq] at htype
    exact (h.contiguous j hj hold htype).same hkeep
  · exact h'.contiguous j (by omega) hj' htype

/-- The blocks of a directory below another one. -/
theorem makeDir_space (h : Sequential lo hi last base n e s) (hlast : last < 8191) (hp : 0 < p)
    (hp' : p ≤ last) (hdir : HoldsDir p es s) (hn : fileBlocks s.mem p = dirSpace es.length)
    (hsmall : 128 * (es.length + 1) < 4259840) :
    Outcome (makeDir env p name) s
      (fun _ t => ∃ n', Sequential lo hi (last + 1) base n' (e + 1 + growth es.length 1) t ∧
        n' p = dirSpace (es.length + 1) ∧ n' (last + 1) = 1)
      (fun _ => name.length ≤ 118 → hi < e + 1 + growth es.length 1) := by
  rw [h.fileBlocks_eq hp'] at hn
  refine (makeDir_sequential h hlast (by omega)).mono ?_ ?_
  · rintro no t ⟨-, n₁, rfl, ⟨hroot, -⟩ | ⟨-, j, hj, -, ht⟩⟩
    · simp only [rootInode] at hroot
      omega
    · have hsame : Function.update n (last + 1) 1 p = n p := Function.update_of_ne (by omega) _ _
      rw [hdir.firstFree (hj hp'), hsame, hn, scanned_dirSpace hsmall] at ht
      refine ⟨_, ht, Function.update_self .., ?_⟩
      rw [Function.update_of_ne (by omega), Function.update_self]
  · rintro err he hname
    rcases he ⟨hname, by omega, hp', hdir.type_eq⟩ with hfirst | ⟨j, hused, hentry⟩
    · have hlt := hfirst.2
      omega
    · exact (hdir.shortage hsmall hn hused hentry).2

/-- The blocks of a file and of its entry. -/
theorem makeFile_space (h : Sequential lo hi last base n e s) (hlast : last < 8191) (hp : 0 < p)
    (hp' : p ≤ last) (hdir : HoldsDir p es s) (hn : fileBlocks s.mem p = dirSpace es.length)
    (hsmall : 128 * (es.length + 1) < 4259840) :
    Outcome (do
        let fileNo ← makeFile env p name
        let inode ← getInode fileNo
        INode.write inode 0 contents) s
      (fun _ t => Extended lo hi last (last + 1) base
        (e + growth es.length 1 + blocksFor (fileSpace contents.length)) p (es.length + 1) t)
      (fun _ => name.length ≤ 118 →
        hi < e + growth es.length 1 + blocksFor (fileSpace contents.length)) := by
  rw [h.fileBlocks_eq hp'] at hn
  refine Outcome.bind (((makeFile_outcome h.owned h.closed hlast (by omega)).both
    (makeFile_sequential h hlast (by omega))).mono ?_ ?_)
  · rintro _ t ⟨⟨rfl, heff⟩, -, j, hj, ht⟩
    have heff' : (Op.makeFile env p name).Effect lo hi last s t := heff
    rw [hdir.firstFree hj, hn, scanned_dirSpace hsmall] at ht
    have hget := getInode_eq ht.owned.mapped_ge (show last + 1 < 32768 by omega)
      ((ht.owned.inodeBit_iff _ (by omega)).mpr le_rfl)
    have hsize : fileSize t.mem (last + 1) = 0 := (heff'.holdsFile_new hlast).size_eq
    have hpacked := ht.packed (le_refl (last + 1))
    have hwrite := write_takes contents hpacked le_rfl (show 0 < 2 ^ 64 by omega)
    have hnew : Function.update (Function.update n (last + 1) 0) p (dirSpace (es.length + 1))
        (last + 1) = 0 := by
      rw [Function.update_of_ne (by omega), Function.update_self]
    rw [hnew, hsize, ← fileSpace] at hwrite
    refine Outcome.bind_ok hget (hwrite.mono ?_ ?_)
    · intro _ u hu
      have hseq := ht.takes (k := fileSpace contents.length) (le_refl (last + 1))
        (by rwa [hnew])
      rw [hnew, blocksFor_zero, Nat.sub_zero] at hseq
      rw [blocksFor_zero] at hu
      refine ⟨⟨_, hseq⟩, ?_, fun j hj hj' _ => ?_⟩
      · rw [hseq.fileBlocks_eq (by omega), Function.update_of_ne (by omega), Function.update_self]
      · rw [show j = last + 1 by omega]
        exact hu.contiguous
    · intro err he _
      have hlt := he.2
      rw [blocksFor_zero, Nat.sub_zero] at hlt
      exact hlt
  · rintro err ⟨-, he⟩ hname
    obtain ⟨j, hused, hentry⟩ := he ⟨hname, by omega, hp', hdir.type_eq⟩
    have hlt := (hdir.shortage hsmall hn hused hentry).2
    omega

/-! ## A whole tree -/

namespace HostDir

/-- The blocks that lie below the entries of a host directory: those of its files, and those of
its directories with everything in them. -/
def blocks : HostDir → Nat
  | nil => 0
  | dir _ entries rest =>
      blocksFor (dirSpace (entries.names.length + 2)) + entries.blocks + rest.blocks
  | file _ contents rest => blocksFor (fileSpace contents.length) + rest.blocks

/-- The blocks of a host directory, which becomes the root. -/
def size (tree : HostDir) : Nat := blocksFor (dirSpace (tree.names.length + 2)) + tree.blocks

end HostDir

/-- A directory of two entries, and then the others. -/
theorem one_add_growth (k : Nat) : 1 + growth 2 k = blocksFor (dirSpace (k + 2)) := by
  have hone : blocksFor (dirSpace 2) = 1 := blocksFor_direct (by decide)
  have hle := dirSpace_le (show 2 ≤ k + 2 by omega)
  rw [growth, Nat.add_comm 2 k]
  omega

theorem length_dots : (dots i p).length = 2 := rfl

namespace HostDir

/-- The blocks that are taken when the entries go into a directory with `k` entries. -/
def cost (tree : HostDir) (k : Nat) : Nat := growth k tree.names.length + tree.blocks

theorem cost_nil (k : Nat) : cost nil k = 0 := by
  rw [cost, blocks, Nat.add_zero, growth, names, List.length_nil, Nat.add_zero, Nat.sub_self]

theorem cost_dir {entries rest : HostDir} (k : Nat) : cost (dir name entries rest) k =
    1 + growth k 1 + entries.cost 2 + rest.cost (k + 1) := by
  have hdouble := growth_add (k := k) (m := 1) (l := rest.names.length)
  have hnew := one_add_growth entries.names.length
  simp only [cost, names, blocks, List.length_cons, Nat.add_comm rest.names.length 1, ← hdouble,
    ← hnew]
  ring

theorem cost_file {rest : HostDir} (k : Nat) : cost (file name contents rest) k =
    growth k 1 + blocksFor (fileSpace contents.length) + rest.cost (k + 1) := by
  have hdouble := growth_add (k := k) (m := 1) (l := rest.names.length)
  simp only [cost, names, blocks, List.length_cons, Nat.add_comm rest.names.length 1, ← hdouble]
  ring

end HostDir

/-- `make_fs` takes the blocks of the tree, or there are fewer. -/
theorem makeFs_sequential (env : Env) (tree : HostDir) (hs : Healthy lo hi last base s)
    (hseq : ∃ n, Sequential lo hi last base n e s) (hp : 0 < p) (hp' : p ≤ last)
    (hdir : HoldsDir p es s) (hn : fileBlocks s.mem p = dirSpace es.length)
    (hroom : last + tree.count < 8192) (hsmall : es.length + tree.count < 33280) :
    Outcome (makeFs env tree p) s
      (fun _ t => Extended lo hi last (last + tree.count) base (e + tree.cost es.length) p
        (es.length + tree.names.length) t)
      (fun _ => tree.NamesFit → hi < e + tree.cost es.length) := by
  induction tree generalizing last p es e s with
  | nil =>
      rw [HostDir.cost_nil]
      exact Outcome.pure ⟨hseq, hn, fun j hj hj' => absurd hj' (Nat.not_le.mpr hj)⟩
  | dir name entries rest ihEntries ihRest =>
      obtain ⟨n, hn'⟩ := hseq
      simp only [HostDir.cost_dir, HostDir.names, HostDir.count, List.length_cons] at hroom hsmall ⊢
      refine Outcome.bind (((makeDir_child hs (by omega) hp hp' hdir).both
        (makeDir_space hn' (by omega) hp hp' hdir hn (by omega))).mono ?_ ?_)
      swap
      · rintro err ⟨-, he⟩ hfit
        have hlt := he hfit.1
        omega
      rintro _ t ⟨⟨rfl, ht, htdir, htnew, htsame⟩, n₁, hseq₁, hparent, hfresh⟩
      have htp := (hseq₁.fileBlocks_eq (i := p) (by omega)).trans hparent
      have htone := (hseq₁.fileBlocks_eq (i := last + 1) le_rfl).trans hfresh
      have hempty : fileBlocks t.mem (last + 1) = dirSpace (dots (last + 1) p).length := by
        rw [htone, length_dots]
        rfl
      refine Outcome.bind (((makeFs_outcome entries ht (Nat.succ_pos last) le_rfl htnew
        (by omega)).both (ihEntries ht ⟨n₁, hseq₁⟩ (Nat.succ_pos last) le_rfl htnew hempty
          (by omega) (by rw [length_dots]; omega))).mono ?_ ?_)
      swap
      · rintro err ⟨-, he⟩ hfit
        have hlt := he hfit.2.1
        rw [length_dots] at hlt
        omega
      rintro _ u ⟨hu, hspace⟩
      rw [length_dots] at hspace
      have hudir := htdir.same (hu.same p (by omega) (by omega))
      have hup := (hu.same p (by omega) (by omega)).fileBlocks_eq.trans htp
      -- the new directory is no file
      have hsub : Extended lo hi last (last + 1 + entries.count) base
          (e + 1 + growth es.length 1 + entries.cost 2) p (es.length + 1) u := by
        refine ⟨hspace.sequential, hup, fun j hj hj' htype => ?_⟩
        rcases Nat.eq_or_lt_of_le (show last + 1 ≤ j by omega) with rfl | hlt
        · rw [hu.dir.type_eq] at htype
          exact absurd htype (by decide)
        · exact hspace.contiguous j hlt hj' htype
      rw [← List.length_concat (a := dirEntry env (last + 1) name), List.concat_eq_append] at hup
      refine ((makeFs_outcome rest hu.healthy hp (by omega) hudir (by omega)).both
        (ihRest hu.healthy hspace.sequential hp (by omega) hudir hup (by omega)
          (by rw [List.length_append, List.length_singleton]; omega))).mono ?_ ?_
      · rintro _ v ⟨hv, hlast⟩
        rw [List.length_append, List.length_singleton] at hlast
        have hall := hsub.append hlast hp' hv.same
        convert hall using 1
        · ring
        · ring
        · ring
      · rintro err ⟨-, he⟩ hfit
        have hlt := he hfit.2.2
        rw [List.length_append, List.length_singleton] at hlt
        omega
  | file name contents rest ih =>
      obtain ⟨n, hn'⟩ := hseq
      simp only [HostDir.cost_file, HostDir.names, HostDir.count, List.length_cons]
        at hroom hsmall ⊢
      rw [makeFs_file]
      refine Outcome.bind (((makeFile_child hs (by omega) hp hp' hdir).both
        (makeFile_space hn' (by omega) hp hp' hdir hn (by omega))).mono ?_ ?_)
      swap
      · rintro err ⟨-, he⟩ hfit
        have hlt := he hfit.1
        omega
      rintro _ t ⟨⟨ht, htdir, -, -⟩, hfile⟩
      have htp := hfile.parent
      rw [← List.length_concat (a := fileEntry (last + 1) name), List.concat_eq_append] at htp
      refine ((makeFs_outcome rest ht hp (by omega) htdir (by omega)).both
        (ih ht hfile.sequential hp (by omega) htdir htp (by omega)
          (by rw [List.length_append, List.length_singleton]; omega))).mono ?_ ?_
      · rintro _ v ⟨hv, hlast⟩
        rw [List.length_append, List.length_singleton] at hlast
        have hall := hfile.append hlast hp' hv.same
        convert hall using 1
        · ring
        · ring
        · ring
      · rintro err ⟨-, he⟩ hfit
        have hlt := he hfit.2
        rw [List.length_append, List.length_singleton] at hlt
        omega

/-! ## Builds -/

section Builds

variable {bin : MMAPBinContent} {lines : List (List Char)} {syms : Symbols}

/-- The root with its two first entries, and then the entries of the tree. -/
theorem HostDir.one_add_cost (tree : HostDir) : 1 + tree.cost 2 = tree.size := by
  rw [cost, size, ← one_add_growth]
  ring

/-- What `make_fs` makes of a new volume. -/
theorem makeFs_space (hread : Symbols.read env lines = .ok syms)
    (hlayout : LinkedLayout syms) (hpage : 0x80001000 ≤ syms.sReserve)
    (hrun : construct env bin lines = .ok s) (hcount : tree.count ≤ 8190) :
    Outcome (makeFs env tree rootInode) s
      (fun _ t => (∃ n, Sequential (pa2blkno (ofSymbols bin syms) syms.eKernel)
          (reserveStart (ofSymbols bin syms)) (1 + tree.count) (ofSymbols bin syms) n
          (pa2blkno (ofSymbols bin syms) syms.eKernel + 1 + tree.size) t) ∧
        ∀ j, j ≤ 1 + tree.count → fileType t.mem j = FType.REGULAR.code → Contiguous t j)
      (fun err => tree.NamesFit → err = blockBitmapFull ∧ reserveStart (ofSymbols bin syms) <
        pa2blkno (ofSymbols bin syms) syms.eKernel + 1 + tree.size) := by
  have hreserve := hlayout.reserveStart_le bin hpage
  have hinit := init_of_construct hread hrun
  have hseq := sequential_of_init hinit (by omega)
  have hhealthy := healthy_of_init hinit (by omega)
  rw [poolEnd, min_eq_left (by omega)] at hhealthy
  obtain ⟨-, -, -, hdir⟩ := start_of_construct hread hrun (by omega)
  have hroot : fileBlocks s.mem 1 = dirSpace (dots 1 1).length := by
    rw [hseq.fileBlocks_eq le_rfl, Function.update_self, length_dots]
    rfl
  have hspace := makeFs_sequential env tree hhealthy ⟨_, hseq⟩ (Nat.succ_pos 0) le_rfl
    hdir hroot (by omega) (by rw [length_dots]; omega)
  have hsize := tree.one_add_cost
  have hcursor : pa2blkno (ofSymbols bin syms) syms.eKernel + 2 + tree.cost 2 =
      pa2blkno (ofSymbols bin syms) syms.eKernel + 1 + tree.size := by omega
  rw [length_dots, hcursor] at hspace
  refine ((makeFs_outcome tree hhealthy (Nat.succ_pos 0) le_rfl hdir (by omega)).both hspace).mono
    ?_ ?_
  · rintro _ t ⟨ht, hext⟩
    refine ⟨hext.sequential, fun j hj htype => ?_⟩
    rcases Nat.lt_trichotomy j 1 with hzero | rfl | hlt
    · -- the unused inode has no blocks
      rw [Nat.lt_one_iff.mp hzero]
      have hkeep := ht.same 0 (by omega) (by omega)
      refine ⟨0, fun k hk hv => ?_⟩
      rw [hkeep.blk_eq k hk] at hv
      have hrank := (hseq.filled 0 (Nat.zero_le 1) _ (dataSlot_valid hk)).mp hv
      rw [Function.update_of_ne Nat.zero_ne_one, blocksFor_zero] at hrank
      exact absurd hrank (Nat.not_lt_zero _)
    · rw [ht.dir.type_eq] at htype
      exact absurd htype (by decide)
    · exact hext.contiguous j hlt hj htype
  · rintro err ⟨he, hlt⟩ hfit
    exact ⟨he hfit, hlt hfit⟩

/-- A constructor that aborts has found no block for the root. -/
theorem LinkedLayout.no_root (hlayout : LinkedLayout syms) (hsize : bin.size = 0x80000000)
    (hpage : 0x80001000 ≤ syms.sReserve) (hinit : init env (ofSymbols bin syms) = .error err) :
    err = blockBitmapFull ∧ reserveStart (ofSymbols bin syms) ≤
      pa2blkno (ofSymbols bin syms) syms.eKernel + 1 := by
  have hreserve := hlayout.reserveStart_le bin hpage
  have hblk := hlayout.pa2blkno_eKernel bin
  have hlt := hlayout.lt_sReserve
  have hle := hlayout.sReserve_le
  have hkernel : (ofSymbols bin syms).eKernel = syms.eKernel := rfl
  have hroot : rootBlkNo (ofSymbols bin syms) =
      pa2blkno (ofSymbols bin syms) syms.eKernel + 1 := rfl
  have hmapped : 0x80000000 ≤ (ofSymbols bin syms).mapped := by
    show 0x80000000 ≤ 4096 * ((bin.size + 4095) / 4096)
    omega
  obtain ⟨hrejected, habort⟩ := (init_outcome (hlayout.checked bin) hmapped
    (by rw [hkernel]; omega)).of_error hinit
  refine ⟨habort fun hbefore => by omega, ?_⟩
  by_contra hroom
  exact hrejected ⟨hlayout.checked bin, hmapped, by omega, by omega, by omega, by omega, by omega⟩

theorem HostDir.size_pos (tree : HostDir) : 0 < tree.size := by
  have hsize := tree.one_add_cost
  omega

/-- A build returns a sequential volume with the blocks of the tree and files in one piece, or
there are fewer blocks. -/
theorem LinkedLayout.build_space (hlayout : LinkedLayout syms)
    (hread : Symbols.read env lines = .ok syms) (hsize : bin.size = 0x80000000)
    (hpage : 0x80001000 ≤ syms.sReserve) (hfit : tree.NamesFit) (hcount : tree.count ≤ 8190) :
    (∃ t n, build env bin lines tree = .ok t ∧
      Sequential (pa2blkno (ofSymbols bin syms) syms.eKernel) (reserveStart (ofSymbols bin syms))
        (1 + tree.count) (ofSymbols bin syms) n
        (pa2blkno (ofSymbols bin syms) syms.eKernel + 1 + tree.size) t) ∨
      build env bin lines tree = .error blockBitmapFull ∧ reserveStart (ofSymbols bin syms) <
        pa2blkno (ofSymbols bin syms) syms.eKernel + 1 + tree.size := by
  cases hrun : build env bin lines tree with
  | ok t =>
      obtain ⟨s, hconstruct, hcopy⟩ := exists_of_build hrun
      obtain ⟨⟨n, hseq⟩, -⟩ := (makeFs_space hread hlayout hpage hconstruct hcount).of_ok hcopy
      exact Or.inl ⟨t, n, rfl, hseq⟩
  | error err =>
      right
      rcases error_of_build hread hrun with hinit | ⟨s, hconstruct, hcopy⟩
      · have hpos := tree.size_pos
        obtain ⟨rfl, hle⟩ := hlayout.no_root hsize hpage hinit
        exact ⟨rfl, by omega⟩
      · obtain ⟨rfl, hlt⟩ :=
          (makeFs_space hread hlayout hpage hconstruct hcount).of_error hcopy hfit
        exact ⟨rfl, hlt⟩

/-- On a layout of the linker script with the reserve behind the first page, a build returns
exactly when the blocks of the tree fit between the kernel and the reserve, and then these are
the blocks in use. -/
theorem build_capacity (hread : Symbols.read env lines = .ok syms) (hlayout : LinkedLayout syms)
    (hsize : bin.size = 0x80000000) (hpage : 0x80001000 ≤ syms.sReserve) (hfit : tree.NamesFit)
    (hcount : tree.count ≤ 8190) :
    if pa2blkno (ofSymbols bin syms) syms.eKernel + 1 + tree.size ≤
        reserveStart (ofSymbols bin syms) then
      ∃ t, build env bin lines tree = .ok t ∧ usedBlocks t = tree.size
    else
      build env bin lines tree = .error blockBitmapFull := by
  rcases hlayout.build_space hread hsize hpage hfit hcount with ⟨t, n, hrun, hseq⟩ | ⟨hrun, hlt⟩
  · have hcursor := hseq.cursor
    rw [if_pos hseq.le_hi]
    refine ⟨t, hrun, ?_⟩
    rw [hseq.usedBlocks_eq]
    omega
  · rwa [if_neg (Nat.not_le.mpr hlt)]

/-- Every file lies in one piece. -/
def Unfragmented (s : ParchFS) : Prop :=
  ∀ i, Allocated s i → fileType s.mem i = FType.REGULAR.code → Contiguous s i

/-- The image of a build is not fragmented. -/
theorem build_unfragmented (hread : Symbols.read env lines = .ok syms)
    (hlayout : LinkedLayout syms) (hpage : 0x80001000 ≤ syms.sReserve)
    (hcount : tree.count ≤ 8190) (hrun : build env bin lines tree = .ok t) : Unfragmented t := by
  obtain ⟨s, hconstruct, hcopy⟩ := exists_of_build hrun
  obtain ⟨⟨n, hseq⟩, hpieces⟩ := (makeFs_space hread hlayout hpage hconstruct hcount).of_ok hcopy
  exact fun i hi' htype => hpieces i (hseq.owned.allocated_iff.mp hi') htype

/-! ## A tree of one file -/

/-- A file of one byte. -/
def oneFile : HostDir := .file [97] [0] .nil

theorem namesFit_oneFile : oneFile.NamesFit := ⟨by decide, trivial⟩

theorem size_oneFile : oneFile.size = 2 := by
  have hroot : blocksFor (dirSpace (oneFile.names.length + 2)) = 1 := blocksFor_direct (by decide)
  have hfile : fileSpace 1 = 1 := fileSpace_of_lt (by omega)
  have hone : blocksFor 1 = 1 := blocksFor_direct (by omega)
  rw [HostDir.size, hroot]
  show 1 + (blocksFor (fileSpace 1) + 0) = 2
  rw [hfile, hone]

theorem sample_fits : pa2blkno (ofSymbols blankImage (layout 0x80200000 0xffdde000)) 0x80200000 +
    1 + oneFile.size ≤ reserveStart (ofSymbols blankImage (layout 0x80200000 0xffdde000)) := by
  rw [size_oneFile]
  decide

theorem build_capacity_sample : ∃ t, build blankEnv blankImage sampleLines oneFile = .ok t ∧
    usedBlocks t = oneFile.size := by
  have hbuild := build_capacity sample_read sample_linked
    (show blankImage.size = 0x80000000 from rfl) (by decide) namesFit_oneFile (by decide)
  rwa [if_pos (by exact sample_fits)] at hbuild

theorem build_unfragmented_sample : ∃ t,
    build blankEnv blankImage sampleLines oneFile = .ok t ∧ Unfragmented t := by
  rcases sample_linked.build_space sample_read (show blankImage.size = 0x80000000 from rfl)
    (by decide) namesFit_oneFile (by decide) with ⟨t, n, hrun, -⟩ | ⟨-, hlt⟩
  · exact ⟨t, hrun, build_unfragmented sample_read sample_linked (by decide) (by decide) hrun⟩
  · exact absurd sample_fits (Nat.not_le.mpr hlt)

end Builds

end ParchTestbench
