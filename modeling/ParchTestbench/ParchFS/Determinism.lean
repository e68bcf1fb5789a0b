import ParchTestbench.ParchFS.TreeCopy
import ParchTestbench.ParchFS.Appending

/-!
# ParchFS: what the image depends on

Two builds of the same tree that differ only in the unspecified contents of the local
`DEntry` of `make_dir`.  That variable is not cleared before the name is copied into it, so
the image shows what it held behind the name.

Main results:

- Theorem `build_of_fullNames`: names that fill their field leave nothing to show.
- Theorem `image_determined_iff`: two builds give the same image exactly when the variables
  agree behind the names.
-/

namespace ParchTestbench

open ParchFS Program

variable {lo hi last i p : Nat} {base s t v : ParchFS} {env : Env} {es es' : List DEntry}
  {name : List UInt8} {tree : HostDir} {u u' : Nat → Fin 118 → UInt8} {bin : MMAPBinContent}
  {lines : List (List Char)} {syms : Symbols}

/-- The same surroundings but for the contents of the local `DEntry`. -/
def Env.withUninit (env : Env) (u : Nat → Fin 118 → UInt8) : Env := { env with uninit := u }

namespace HostDir

/-- The names of all directories fill their field. -/
def FullNames : HostDir → Prop
  | nil => True
  | dir name entries rest => 118 ≤ name.length ∧ entries.FullNames ∧ rest.FullNames
  | file _ _ rest => rest.FullNames

/-- For each directory of the tree the two contents agree behind its name. -/
def AgreeBehindNames (u u' : Nat → Fin 118 → UInt8) : HostDir → Nat → Prop
  | nil, _ => True
  | dir name entries rest, last =>
      (∀ k : Fin 118, name.length ≤ k → u (last + 1) k = u' (last + 1) k) ∧
        AgreeBehindNames u u' entries (last + 1) ∧
          AgreeBehindNames u u' rest (last + 1 + entries.count)
  | file _ _ rest, last => AgreeBehindNames u u' rest (last + 1)

end HostDir

/-! ## Equal entries, equal runs -/

/-- The name field is the same exactly when the contents agree behind the name. -/
theorem nameField_eq_iff {old old' : Fin 118 → UInt8} :
    nameField name old = nameField name old' ↔ ∀ k : Fin 118, name.length ≤ k → old k = old' k := by
  constructor
  · intro heq k hk
    have hbyte := congrFun heq k
    unfold nameField at hbyte
    rwa [List.getElem?_eq_none hk] at hbyte
  · intro hagree
    funext k
    unfold nameField
    rcases Nat.lt_or_ge k name.length with hlt | hge
    · rw [List.getElem?_eq_getElem hlt]
      rfl
    · rw [List.getElem?_eq_none hge, hagree k hge]

theorem dirEntry_congr {no : Nat} (h : ∀ k : Fin 118, name.length ≤ k → u no k = u' no k) :
    dirEntry (env.withUninit u) no name = dirEntry (env.withUninit u') no name := by
  unfold dirEntry
  rw [show (env.withUninit u).uninit no = u no from rfl,
    show (env.withUninit u').uninit no = u' no from rfl, nameField_eq_iff.mpr h]

/-- Calls of `make_dir` are the same if the entries for the inode that is allocated are. -/
theorem makeDir_congr (h : ∀ no t, allocInode s = .ok (no, t) → no ≠ rootInode →
      dirEntry (env.withUninit u) no name = dirEntry (env.withUninit u') no name) :
    makeDir (env.withUninit u) p name s = makeDir (env.withUninit u') p name s := by
  unfold makeDir
  refine bind_congr_of_ok rfl fun _ v hv => ?_
  obtain rfl := eq_of_assert hv
  refine bind_congr_of_ok rfl fun _ v hv => ?_
  obtain rfl := eq_of_assert hv
  refine bind_congr_of_ok rfl fun no v hno => ?_
  by_cases hroot : no = rootInode
  · simp only [if_pos hroot]
    rfl
  · simp only [if_neg hroot, h no v hno hroot]
    rfl

/-- Names that fill their field leave no room for other contents. -/
theorem makeFs_of_fullNames (h : tree.FullNames) (p : Nat) (s : ParchFS) :
    makeFs (env.withUninit u) tree p s = makeFs (env.withUninit u') tree p s := by
  induction tree generalizing p s with
  | nil => rfl
  | dir name entries rest ihEntries ihRest =>
      obtain ⟨hname, hentries, hrest⟩ := h
      refine bind_congr_of_ok (makeDir_congr fun no _ _ _ => ?_) fun no t _ => ?_
      · exact dirEntry_congr fun k hk => absurd k.isLt (by omega)
      · exact bind_congr_of_ok (ihEntries hentries no t) fun _ v _ => ihRest hrest p v
  | file name contents rest ih =>
      rw [makeFs_file, makeFs_file]
      exact bind_congr_of_ok rfl fun _ v _ => ih h p v

/-- On a healthy volume the contents matter for the inodes of the directories only. -/
theorem makeFs_of_agree (h : tree.AgreeBehindNames u u' last) (hs : Healthy lo hi last base s)
    (hp : 0 < p) (hp' : p ≤ last) (hdir : HoldsDir p es s) (hroom : last + tree.count < 8192) :
    makeFs (env.withUninit u) tree p s = makeFs (env.withUninit u') tree p s := by
  induction tree generalizing last p es s with
  | nil => rfl
  | dir name entries rest ihEntries ihRest =>
      obtain ⟨hagree, hentries, hrest⟩ := h
      rw [HostDir.count] at hroom
      have hclear : inodeBit s.mem (last + 1) = false :=
        Bool.eq_false_of_not_eq_true fun hset => by
          have hle := (hs.owned.inodeBit_iff _ (by omega)).mp hset
          omega
      have halloc := allocInode_eq hs.owned.mapped_ge (by omega) hclear fun q hq =>
        (hs.owned.inodeBit_iff q (by omega)).mpr (by omega)
      refine bind_congr_of_ok (makeDir_congr fun no _ hno _ => ?_) fun no t hmake => ?_
      · rw [halloc] at hno
        cases hno
        exact dirEntry_congr hagree
      obtain ⟨rfl, ht, htdir, htnew, -⟩ := (makeDir_child hs (by omega) hp hp' hdir).of_ok hmake
      refine bind_congr_of_ok (ihEntries hentries ht (Nat.succ_pos last) le_rfl htnew (by omega))
        fun _ v hcopy => ?_
      have hv := (makeFs_outcome entries ht (Nat.succ_pos last) le_rfl htnew (by omega)).of_ok hcopy
      exact ihRest hrest hv.healthy hp (by omega) (htdir.same (hv.same p (by omega) (by omega)))
        (by omega)
  | file name contents rest ih =>
      rw [HostDir.count] at hroom
      rw [makeFs_file, makeFs_file]
      refine bind_congr_of_ok rfl fun _ t hmake => ?_
      obtain ⟨ht, htdir, -⟩ := (makeFile_child hs (by omega) hp hp' hdir).of_ok hmake
      exact ih h ht hp (by omega) htdir (by omega)

/-! ## Equal images, equal contents -/

theorem DEntry.fName_eq_of_bytes {d d' : DEntry} (h : d.bytes = d'.bytes) : d.fName = d'.fName := by
  unfold DEntry.bytes at h
  have hname := List.append_inj_right (List.append_inj_right (List.append_inj_right
    (List.append_inj_right h ?_) ?_) ?_) ?_
  · exact List.ofFn_injective hname
  all_goals rw [Mem.length_leBytes, Mem.length_leBytes]

/-- Where the memory is the same, a directory holds the same bytes. -/
theorem HoldsDir.bytes_eq (h : HoldsDir i es s) (h' : HoldsDir i es' t)
    (hown : Ownership lo hi last s) (hi' : i ≤ last)
    (hsame : ∀ x, x < 0x7FFDE000 → t.mem x = s.mem x) :
    es.map DEntry.bytes = es'.map DEntry.bytes := by
  have hlast := hown.last_lt
  have hpool := hown.pool_below_metadata
  have hblock : ∀ σ : Slot, σ.Valid → slotVal s.mem i σ ≠ 0 →
      ∀ x, 4096 * slotVal s.mem i σ ≤ x → x < 4096 * slotVal s.mem i σ + 4096 →
        t.mem x = s.mem x := fun σ hσ hv x _ hx => by
    obtain ⟨-, hhi⟩ := hown.in_pool i hi' σ hσ hv
    exact hsame x (by omega)
  have hslots : ∀ σ : Slot, σ.Valid → slotVal t.mem i σ = slotVal s.mem i σ := fun σ hσ =>
    slotVal_congr (fun x _ hx => hsame x (by rw [INode.addr_eq] at hx; omega))
      (fun q hq _ hv => hblock q hq hv) hσ
  have hcontent : content t.mem i = content s.mem i :=
    content_congr hslots fun k hk hv => hblock _ (dataSlot_valid hk) hv
  have hsize : fileSize t.mem i = fileSize s.mem i :=
    Mem.load_congr fun x _ hx => hsame x (by rw [INode.fSize_eq] at hx; omega)
  rw [h'.size_eq, h.size_eq] at hsize
  rw [h'.content_eq, h.content_eq] at hcontent
  refine Mem.packed_injective (fun r hr => length_of_mem_bytes hr)
    (fun r hr => length_of_mem_bytes hr) ?_ hcontent.symm
  rw [List.length_map, List.length_map]
  omega

/-- What the image shows of a tree tells the contents behind the names. -/
theorem HostDir.Stored.agree (h : tree.Stored (env.withUninit u) s p last)
    (h' : tree.Stored (env.withUninit u') t p last) {n : Nat} (hown : Ownership lo hi n s)
    (hn : last + tree.count ≤ n) (hsame : ∀ x, x < 0x7FFDE000 → t.mem x = s.mem x)
    (hlist : (tree.listing (env.withUninit u) last).map DEntry.bytes =
      (tree.listing (env.withUninit u') last).map DEntry.bytes) :
    tree.AgreeBehindNames u u' last := by
  induction tree generalizing p last with
  | nil => trivial
  | dir name entries rest ihEntries ihRest =>
      obtain ⟨hdir, hentries, hrest⟩ := h
      obtain ⟨hdir', hentries', hrest'⟩ := h'
      rw [HostDir.count] at hn
      obtain ⟨hhead, htail⟩ := List.cons.inj hlist
      have hsub := hdir.bytes_eq hdir' hown (by omega) hsame
      rw [List.map_append, List.map_append] at hsub
      refine ⟨nameField_eq_iff.mp (DEntry.fName_eq_of_bytes hhead), ?_, ?_⟩
      · exact ihEntries hentries hentries' (by omega) (List.append_cancel_left hsub)
      · exact ihRest hrest hrest' (by omega) htail
  | file name contents rest ih =>
      rw [HostDir.count] at hn
      exact ih h.2 h'.2 (by omega) (List.cons.inj hlist).2

/-! ## Two builds -/

/-- The root has no entry in another directory, so the constructor does not use the
contents. -/
theorem init_withUninit (hrun : init (env.withUninit u) s = .ok ((), t)) :
    init (env.withUninit u') s = .ok ((), t) := by
  rw [← hrun]
  unfold init at hrun ⊢
  obtain ⟨_, v, hcheck, hrun⟩ := exists_of_bind_eq_ok hrun
  obtain ⟨_, w, hmeta, hrun⟩ := exists_of_bind_eq_ok hrun
  obtain ⟨no, x, hroot, hrun⟩ := exists_of_bind_eq_ok hrun
  have hno : no = rootInode := by
    by_contra hne
    rw [onlyIf_pos hne] at hrun
    cases hrun
  obtain ⟨y, halloc⟩ := allocInode_of_makeDir hroot
  refine bind_congr_of_ok rfl fun _ v' hcheck' => bind_congr_of_ok rfl fun _ w' hmeta' => ?_
  rw [hcheck] at hcheck'
  cases hcheck'
  have hsame : w' = w := by
    have heq := hmeta.symm.trans hmeta'
    cases heq
    rfl
  subst hsame
  refine bind_congr_of_ok (makeDir_congr fun no' z hz hne => ?_) fun _ _ _ => rfl
  rw [halloc] at hz
  cases hz
  exact absurd hno hne

theorem construct_withUninit (hrun : construct (env.withUninit u) bin lines = .ok s) :
    construct (env.withUninit u') bin lines = .ok s := by
  obtain ⟨syms, hread, hinit⟩ := construct_ok hrun
  exact construct_eq hread (init_withUninit hinit)

/-! ## The image -/

/-- The two image files have the same bytes. -/
def SameImage (bin : MMAPBinContent) (s t : ParchFS) : Prop :=
  ∀ x, x < bin.size → t.mem x = s.mem x

theorem makeFs_of_build (hs : build (env.withUninit u) bin lines tree = .ok s)
    (ht : build (env.withUninit u') bin lines tree = .ok t) :
    ∃ v, construct (env.withUninit u) bin lines = .ok v ∧
      makeFs (env.withUninit u) tree rootInode v = .ok ((), s) ∧
      makeFs (env.withUninit u') tree rootInode v = .ok ((), t) := by
  obtain ⟨v, hconstruct, hcopy⟩ := exists_of_build hs
  obtain ⟨w, hconstruct', hcopy'⟩ := exists_of_build ht
  have hsame := (construct_withUninit hconstruct).symm.trans hconstruct'
  cases hsame
  exact ⟨v, hconstruct, hcopy, hcopy'⟩

/-- On a volume with a marked reserve the image shows what the variables held. -/
theorem agree_of_sameImage (hs : build (env.withUninit u) bin lines tree = .ok s)
    (ht : build (env.withUninit u') bin lines tree = .ok t)
    (hread : Symbols.read env lines = .ok syms)
    (hreserve : reserveStart (ofSymbols bin syms) ≤ 0x7FDDE) (hcount : tree.count ≤ 8190)
    (himage : SameImage bin s t) : tree.AgreeBehindNames u u' 1 := by
  obtain ⟨v, hconstruct, hcopy, hcopy'⟩ := makeFs_of_build hs ht
  have hread' : Symbols.read (env.withUninit u) lines = .ok syms := hread
  obtain ⟨lo, hi, hhealthy, hdir⟩ := start_of_construct hread' hconstruct hreserve
  have hone := (makeFs_outcome tree hhealthy (by decide) le_rfl hdir (by omega)).of_ok hcopy
  have htwo := (makeFs_outcome tree hhealthy (by decide) le_rfl hdir (by omega)).of_ok hcopy'
  have hsize : 0x7FFDE000 ≤ bin.size := by
    have hmapped := hhealthy.owned.mapped_ge
    rw [hhealthy.state, mapped_withMem] at hmapped
    have hpages : 0x80000000 ≤ 4096 * ((bin.size + 4095) / 4096) := hmapped
    omega
  have hbelow : ∀ x, x < 0x7FFDE000 → t.mem x = s.mem x := fun x hx => himage x (by omega)
  have hroot := hone.dir.bytes_eq htwo.dir hone.healthy.owned (by omega) hbelow
  rw [List.map_append, List.map_append] at hroot
  exact hone.stored.agree htwo.stored hone.healthy.owned le_rfl hbelow
    (List.append_cancel_left hroot)

/-- If the names of all directories fill their field, two builds give the same image.  On a
volume with a marked reserve they do so exactly when the contents of the local variables
agree behind the names. -/
theorem image_determined_iff (hs : build (env.withUninit u) bin lines tree = .ok s)
    (ht : build (env.withUninit u') bin lines tree = .ok t) :
    (tree.FullNames → SameImage bin s t) ∧
      ∀ syms, Symbols.read env lines = .ok syms → reserveStart (ofSymbols bin syms) ≤ 0x7FDDE →
        tree.count ≤ 8190 → (SameImage bin s t ↔ tree.AgreeBehindNames u u' 1) := by
  obtain ⟨v, hconstruct, hcopy, hcopy'⟩ := makeFs_of_build hs ht
  have hequal : makeFs (env.withUninit u) tree rootInode v =
      makeFs (env.withUninit u') tree rootInode v → SameImage bin s t := fun heq => by
    rw [hcopy, hcopy'] at heq
    cases heq
    exact fun _ _ => rfl
  refine ⟨fun hfull => hequal (makeFs_of_fullNames hfull _ _), ?_⟩
  intro syms hread hreserve hcount
  refine ⟨agree_of_sameImage hs ht hread hreserve hcount, fun hagree => ?_⟩
  have hread' : Symbols.read (env.withUninit u) lines = .ok syms := hread
  obtain ⟨lo, hi, hhealthy, hdir⟩ := start_of_construct hread' hconstruct hreserve
  exact hequal (makeFs_of_agree hagree hhealthy (by decide) le_rfl hdir (by omega))

/-! ## A directory with a short name -/

/-- A tree of one empty directory, `a`. -/
def oneDirectory : HostDir := .dir ['a'.toUInt8] .nil .nil

theorem exists_build_oneDirectory (u : Nat → Fin 118 → UInt8) :
    ∃ s, build (blankEnv.withUninit u) blankImage sampleLines oneDirectory = .ok s := by
  obtain ⟨s, hrun, hsample⟩ := exists_sampleVolume
  have hbudget := hsample.flat.budget
  have hcost : blockCost (128 * (0 + 2)) = 1 := rfl
  obtain ⟨no, t, hmake⟩ := hsample.holdsDir.exists_makeDir (blankEnv.withUninit u)
    hsample.flat.owned (by omega) (by omega) le_rfl (List.cons_ne_nil _ _) (by decide) (by omega)
    (show ['a'.toUInt8].length ≤ 118 by decide)
  have hblank : construct (blankEnv.withUninit fun _ _ => 0) blankImage sampleLines = .ok s := hrun
  exact ⟨t, build_eq (construct_withUninit hblank) (bind_eq_ok (by exact hmake))⟩

theorem image_determined_iff_sample : ∃ s t,
    build (blankEnv.withUninit fun _ _ => 0) blankImage sampleLines oneDirectory = .ok s ∧
      build (blankEnv.withUninit fun _ _ => 1) blankImage sampleLines oneDirectory = .ok t ∧
        (SameImage blankImage s t ↔
          oneDirectory.AgreeBehindNames (fun _ _ => 0) (fun _ _ => 1) 1) := by
  obtain ⟨s, hs⟩ := exists_build_oneDirectory fun _ _ => 0
  obtain ⟨t, ht⟩ := exists_build_oneDirectory fun _ _ => 1
  exact ⟨s, t, hs, ht, (image_determined_iff hs ht).2 _ sample_read (by decide) (by decide)⟩

/-- The image of a directory `a` depends on the 117 bytes behind its name. -/
theorem not_image_determined : ∃ s t,
    build (blankEnv.withUninit fun _ _ => 0) blankImage sampleLines oneDirectory = .ok s ∧
      build (blankEnv.withUninit fun _ _ => 1) blankImage sampleLines oneDirectory = .ok t ∧
        ¬ SameImage blankImage s t := by
  obtain ⟨s, hs⟩ := exists_build_oneDirectory fun _ _ => 0
  obtain ⟨t, ht⟩ := exists_build_oneDirectory fun _ _ => 1
  refine ⟨s, t, hs, ht, fun himage => ?_⟩
  have hagree := agree_of_sameImage hs ht sample_read (by decide) (by decide) himage
  have hlast : (0 : UInt8) = 1 := hagree.1 ⟨117, by omega⟩ (show 1 ≤ 117 by omega)
  exact absurd hlast (by decide)

end ParchTestbench
