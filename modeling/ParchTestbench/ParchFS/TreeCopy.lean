import ParchTestbench.ParchFS.History

/-!
# ParchFS: copying a host tree

What `make_fs` leaves of a host tree: inodes are numbered in the order in which the entries
are visited, a directory holds its two first entries and those of the host directory in the
order of the iterator, and a file holds its contents.

Main results:

- Theorem `makeDir_child` and `makeFile_child`: one entry is added to a directory.
- Theorem `makeFs_outcome`: a tree is copied below a directory, or the block bitmap is full.
-/

namespace ParchTestbench

open ParchFS Program
open WriteLog (extent)

variable {lo hi last i p : Nat} {base s t u : ParchFS} {env : Env} {es : List DEntry}
  {name buf : List UInt8} {tree : HostDir}

/-! ## The copy of a tree -/

namespace HostDir

/-- The number of entries of a host tree. -/
def count : HostDir → Nat
  | nil => 0
  | dir _ entries rest => entries.count + rest.count + 1
  | file _ _ rest => rest.count + 1

/-- All names fit into an entry. -/
def NamesFit : HostDir → Prop
  | nil => True
  | dir name entries rest => name.length ≤ 118 ∧ entries.NamesFit ∧ rest.NamesFit
  | file name _ rest => name.length ≤ 118 ∧ rest.NamesFit

/-- The entries that a host directory becomes on a volume with the inodes `0 ... last`. -/
def listing (env : Env) : HostDir → Nat → List DEntry
  | nil, _ => []
  | dir name entries rest, last =>
      dirEntry env (last + 1) name :: rest.listing env (last + 1 + entries.count)
  | file name _ rest, last => fileEntry (last + 1) name :: rest.listing env (last + 1)

/-- What is below the entries of directory `p`: every directory holds its entries, every
file its contents. -/
def Stored (env : Env) (s : ParchFS) : HostDir → Nat → Nat → Prop
  | nil, _, _ => True
  | dir _ entries rest, p, last =>
      HoldsDir (last + 1) (dots (last + 1) p ++ entries.listing env (last + 1)) s ∧
        Stored env s entries (last + 1) (last + 1) ∧
          Stored env s rest p (last + 1 + entries.count)
  | file _ contents rest, p, last =>
      HoldsFile (last + 1) [(0, contents)] s ∧ Stored env s rest p (last + 1)

/-- The copy lives in its own inodes. -/
theorem Stored.same (h : tree.Stored env s p last)
    (hsame : ∀ j, last < j → j ≤ last + tree.count → SameInode j s t) :
    tree.Stored env t p last := by
  induction tree generalizing p last with
  | nil => trivial
  | dir name entries rest ihEntries ihRest =>
      obtain ⟨hdir, hentries, hrest⟩ := h
      rw [count] at hsame
      refine ⟨hdir.same (hsame _ (by omega) (by omega)), ihEntries hentries fun j hj hj' => ?_,
        ihRest hrest fun j hj hj' => ?_⟩
      · exact hsame j (by omega) (by omega)
      · exact hsame j (by omega) (by omega)
  | file name contents rest ih =>
      obtain ⟨hfile, hrest⟩ := h
      rw [count] at hsame
      refine ⟨hfile.same (hsame _ (by omega) (by omega)), ih hrest fun j hj hj' => ?_⟩
      exact hsame j (by omega) (by omega)

end HostDir

/-! ## One entry -/

/-- `make_dir` below a directory. -/
theorem makeDir_child (hs : Healthy lo hi last base s) (hlast : last < 8191) (hp : 0 < p)
    (hp' : p ≤ last) (hdir : HoldsDir p es s) :
    Outcome (makeDir env p name) s
      (fun no t => no = last + 1 ∧ Healthy lo hi (last + 1) base t ∧
        HoldsDir p (es ++ [dirEntry env (last + 1) name]) t ∧
        HoldsDir (last + 1) (dots (last + 1) p) t ∧
        ∀ j, j ≤ last → j ≠ p → SameInode j s t)
      (fun e => name.length ≤ 118 → e = blockBitmapFull) := by
  refine (makeDir_outcome hs.owned hs.closed hlast (by omega) (by omega)).mono ?_ ?_
  · rintro no t ⟨hno, heff⟩
    have hroom : last + (Op.makeDir env p name).added < 8192 := Nat.succ_lt_succ hlast
    have heff' : (Op.makeDir env p name).Effect lo hi last s t := heff
    have hnew := heff'.holdsDir_new hlast (by omega)
    have hold := hdir.step hs.owned hroom hp' heff' trivial
    rw [Op.entries, if_neg (by omega), List.append_nil] at hnew
    rw [Op.entries, if_pos rfl] at hold
    exact ⟨hno, heff'.healthy hs hroom, hold, hnew, fun j hj hne =>
      heff'.sameInode hs.owned hroom hj hne⟩
  · intro e he hname
    exact he ⟨hname, by omega, hp', hdir.type_eq⟩

/-- `make_file` below a directory, with the file's contents. -/
theorem makeFile_child (hs : Healthy lo hi last base s) (hlast : last < 8191) (hp : 0 < p)
    (hp' : p ≤ last) (hdir : HoldsDir p es s) :
    Outcome (do
        let fileNo ← makeFile env p name
        let inode ← getInode fileNo
        INode.write inode 0 buf) s
      (fun _ t => Healthy lo hi (last + 1) base t ∧
        HoldsDir p (es ++ [fileEntry (last + 1) name]) t ∧ HoldsFile (last + 1) [(0, buf)] t ∧
        ∀ j, j ≤ last → j ≠ p → SameInode j s t)
      (fun e => name.length ≤ 118 → e = blockBitmapFull) := by
  refine Outcome.bind ((makeFile_outcome hs.owned hs.closed hlast (by omega)).mono ?_ ?_)
  · rintro _ t ⟨rfl, heff⟩
    have hroom : last + (Op.makeFile env p name).added < 8192 := Nat.succ_lt_succ hlast
    have heff' : (Op.makeFile env p name).Effect lo hi last s t := heff
    have ht := heff'.healthy hs hroom
    have hnew := heff'.holdsFile_new hlast
    have hold := hdir.step hs.owned hroom hp' heff' trivial
    rw [Op.entries, if_pos rfl] at hold
    have hget := getInode_eq ht.owned.mapped_ge (show last + 1 < 32768 by omega)
      ((ht.owned.inodeBit_iff _ (by omega)).mpr le_rfl)
    refine Outcome.bind_ok hget ((write_outcome ht.owned ht.closed le_rfl (by omega)).mono ?_
      fun e he _ => he)
    rintro _ u hu
    have hwrite : (Op.write (last + 1) 0 buf).Effect lo hi (last + 1) t u := ⟨le_rfl, hu⟩
    have hkeep : ∀ j, j ≤ last → SameInode j t u := fun j hj =>
      hwrite.sameInode ht.owned hroom (by omega) (show j ≠ last + 1 by omega)
    refine ⟨ht.touches hu.owned hu.touches, hold.same (hkeep p hp'), ?_, fun j hj hne => ?_⟩
    · exact hnew.access le_rfl ht.owned hu.touches hu.content_eq hu.size_eq hu.mapped hu.beyond
        hu.end_lt
    · exact (heff'.sameInode hs.owned hroom hj hne).trans (hkeep j hj)
  · intro e he hname
    exact he ⟨hname, by omega, hp', hdir.type_eq⟩

/-! ## A whole tree -/

/-- From `s` to `t` a host tree has been copied into directory `p`, which held the entries
`es`. -/
structure Copied (lo hi last : Nat) (base : ParchFS) (env : Env) (tree : HostDir) (p : Nat)
    (es : List DEntry) (s t : ParchFS) : Prop where
  healthy : Healthy lo hi (last + tree.count) base t
  dir : HoldsDir p (es ++ tree.listing env last) t
  stored : tree.Stored env t p last
  same : ∀ j, j ≤ last → j ≠ p → SameInode j s t

/-- The copy of a file and that of the rest. -/
theorem makeFs_file {contents : List UInt8} {rest : HostDir} :
    makeFs env (.file name contents rest) p = (do
      let fileNo ← makeFile env p name
      let inode ← getInode fileNo
      INode.write inode 0 contents) >>= fun _ => makeFs env rest p := by
  rw [makeFs, bind_assoc]
  simp only [bind_assoc]

/-- `make_fs` copies a tree below a directory, or stops with a full block bitmap. -/
theorem makeFs_outcome (tree : HostDir) (hs : Healthy lo hi last base s) (hp : 0 < p)
    (hp' : p ≤ last) (hdir : HoldsDir p es s) (hroom : last + tree.count < 8192) :
    Outcome (makeFs env tree p) s (fun _ t => Copied lo hi last base env tree p es s t)
      (fun e => tree.NamesFit → e = blockBitmapFull) := by
  induction tree generalizing last p es s with
  | nil =>
      refine Outcome.pure ⟨hs, ?_, trivial, fun j _ _ => ?_⟩
      · rwa [HostDir.listing, List.append_nil]
      · exact ⟨rfl, rfl, rfl, rfl, fun _ _ => rfl⟩
  | dir name entries rest ihEntries ihRest =>
      rw [HostDir.count] at hroom
      refine Outcome.bind ((makeDir_child hs (by omega) hp hp' hdir).mono ?_
        fun e he hfit => he hfit.1)
      rintro _ t ⟨rfl, ht, htdir, htnew, htsame⟩
      refine Outcome.bind ((ihEntries ht (Nat.succ_pos last) le_rfl htnew (by omega)).mono ?_
        fun e he hfit => he hfit.2.1)
      rintro _ u hu
      have hudir := htdir.same (hu.same p (by omega) (by omega))
      refine (ihRest hu.healthy hp (by omega) hudir (by omega)).mono ?_
        fun e he hfit => he hfit.2.2
      rintro _ v hv
      refine ⟨?_, ?_, ⟨?_, ?_, hv.stored⟩, fun j hj hne => ?_⟩
      · rw [HostDir.count, show last + (entries.count + rest.count + 1) =
          last + 1 + entries.count + rest.count by omega]
        exact hv.healthy
      · rw [HostDir.listing, ← List.singleton_append, ← List.append_assoc]
        exact hv.dir
      · exact hu.dir.same (hv.same _ (by omega) (by omega))
      · exact hu.stored.same fun j hj hj' => hv.same j (by omega) (by omega)
      · exact ((htsame j hj hne).trans (hu.same j (by omega) (by omega))).trans
          (hv.same j (by omega) hne)
  | file name contents rest ih =>
      rw [HostDir.count] at hroom
      rw [makeFs_file]
      refine Outcome.bind ((makeFile_child hs (by omega) hp hp' hdir).mono ?_
        fun e he hfit => he hfit.1)
      rintro _ t ⟨ht, htdir, htnew, htsame⟩
      refine (ih ht hp (by omega) htdir (by omega)).mono ?_ fun e he hfit => he hfit.2
      rintro _ v hv
      refine ⟨?_, ?_, ⟨?_, hv.stored⟩, fun j hj hne => ?_⟩
      · rw [HostDir.count, show last + (rest.count + 1) = last + 1 + rest.count by omega]
        exact hv.healthy
      · rw [HostDir.listing, ← List.singleton_append, ← List.append_assoc]
        exact hv.dir
      · exact htnew.same (hv.same _ le_rfl (by omega))
      · exact (htsame j hj hne).trans (hv.same j (by omega) hne)

/-! ## A build -/

section Build

variable {bin : MMAPBinContent} {lines : List (List Char)} {syms : Symbols}

theorem exists_of_build (hrun : build env bin lines tree = .ok t) :
    ∃ s, construct env bin lines = .ok s ∧ makeFs env tree rootInode s = .ok ((), t) := by
  obtain ⟨s, hconstruct, hrest⟩ := exists_of_except_ok hrun
  obtain ⟨r, hcopy, hlast⟩ := exists_of_except_ok hrest
  cases hlast
  exact ⟨s, hconstruct, hcopy⟩

theorem build_eq (hconstruct : construct env bin lines = .ok s)
    (hcopy : makeFs env tree rootInode s = .ok ((), t)) : build env bin lines tree = .ok t := by
  unfold build
  rw [hconstruct]
  show (makeFs env tree rootInode s >>= fun r => pure r.2 : Except Abort ParchFS) = .ok t
  rw [hcopy]
  rfl

/-- On a layout with a marked reserve the new volume is healthy, and its root is empty. -/
theorem start_of_construct (hread : Symbols.read env lines = .ok syms)
    (hrun : construct env bin lines = .ok s)
    (hreserve : reserveStart (ofSymbols bin syms) ≤ 0x7FDDE) :
    ∃ lo hi, Healthy lo hi 1 (ofSymbols bin syms) s ∧ HoldsDir 1 (dots 1 1) s := by
  have hinit := init_of_construct hread hrun
  have hblk : pa2blkno (ofSymbols bin syms) (ofSymbols bin syms).eKernel + 1 < 0x7FDDE :=
    lt_of_lt_of_le (initial_of_init hinit).accepted.lt_reserve hreserve
  obtain ⟨v, w, hfounded⟩ := founded_of_init hinit hblk
  exact ⟨_, _, healthy_of_init hinit hreserve, hfounded.holdsDir⟩

end Build

end ParchTestbench
