import ParchTestbench.ParchFS.History
import ParchTestbench.ParchFS.TightLayout
import ParchTestbench.ParchFS.Supply

/-!
# ParchFS: appending to a directory

The loop of `add_dentry` is bounded by the size of the directory, which `get_dentry`
enlarges on the way.  On a healthy volume every call finds the slot behind the last entry.
When the metadata is not marked, a call may be handed the first page of the inode table
instead.

Main results:

- Theorem `HoldsDir.appended`: what a directory holds and what the next call does.
- Theorem `directories_append`: in every run every directory holds its entries in the order
  of the calls.
- Theorem `not_directories_append`: a layout on which the thirtieth call fails.
-/

namespace ParchTestbench

open ParchFS Program

variable {lo hi last i p n fuel : Nat} {base s t u v : ParchFS} {env : Env} {d : DEntry}
  {es : List DEntry} {op : Op} {name : List UInt8}

/-! ## One call -/

/-- From `s` to `t` entry `d` has been stored in the first slot of directory `i` whose inode
number is zero, and no other slot has changed. -/
def StoredFirst (i : Nat) (d : DEntry) (s t : ParchFS) : Prop :=
  ∃ j, (∀ l, l < j → entryInode (content s.mem i) l ≠ 0) ∧ entryInode (content s.mem i) j = 0 ∧
    (∀ k, k < 128 → some (content t.mem i (128 * j + k)) = d.bytes[k]?) ∧
    ∀ x, x < 128 * j ∨ 128 * (j + 1) ≤ x → content t.mem i x = content s.mem i x

/-- Directory `i` of `s` consists of the entries `es`, and `add_dentry` appends to them or
finds no block. -/
structure Appended (i : Nat) (es : List DEntry) (s : ParchFS) : Prop where
  size_eq : fileSize s.mem i = 128 * es.length
  slot : ∀ j d, es[j]? = some d →
    ∀ k, k < 128 → some (content s.mem i (128 * j + k)) = d.bytes[k]?
  rest : ∀ x, 128 * es.length ≤ x → content s.mem i x = 0
  next : ∀ d, d.inode ≠ 0 → d.inode < 2 ^ 32 →
    (∃ t, INode.addDentry i d s = .ok ((), t) ∧ StoredFirst i d s t ∧
      fileSize t.mem i = 128 * (es.length + 1)) ∨
    INode.addDentry i d s = .error blockBitmapFull

theorem Added.storedFirst {j : Nat} (h : Added lo hi last i 0 j d s t) : StoredFirst i d s t := by
  have hlen := d.length_bytes
  refine ⟨j, fun l hl => h.before l (Nat.zero_le l) hl, h.empty, fun k hk => ?_, fun x hx => ?_⟩
  · rw [h.content_eq, Mem.copy_of_mem (Nat.le_add_right _ _) (by omega),
      List.getElem?_eq_getElem (by omega)]
    simp only [Nat.add_sub_cancel_left]
  · rw [h.content_eq]
    exact Mem.copy_of_notMem (by omega)

/-- On a healthy volume a directory holds its entries, and every call appends. -/
theorem HoldsDir.appended (h : HoldsDir i es s) (hs : Healthy lo hi last base s)
    (hi' : i ≤ last) : Appended i es s := by
  refine ⟨h.size_eq, fun j d hj k hk => h.content_entry hj hk, fun x hx => h.content_of_ge hx,
    fun d hd hd' => ?_⟩
  have hcall := addDentry_outcome (d := d) hs.owned hs.closed hi' h.type_eq
  rcases hrun : INode.addDentry i d s with e | ⟨⟨⟩, t⟩
  · exact Or.inr (by rw [hcall.of_error hrun])
  · obtain ⟨j, hj⟩ := hcall.of_ok hrun
    have hnext := h.added hi' hs.owned.last_lt hj ⟨hd, hd'⟩
    refine Or.inl ⟨t, rfl, hj.storedFirst, ?_⟩
    rw [hnext.size_eq, List.length_append, List.length_singleton]

/-! ## Every run -/

section Runs

variable {bin : MMAPBinContent} {lines : List (List Char)} {syms : Symbols} {pre post : List Op}

/-- In every run on a volume with a marked reserve, the root and every directory that is
made hold their two first entries and then those of the calls in their order. -/
theorem directories_append (hread : Symbols.read env lines = .ok syms)
    (hrun : construct env bin lines = .ok s)
    (hreserve : reserveStart (ofSymbols bin syms) ≤ 0x7FDDE) :
    (∀ post u, Admissible 1 [] post → (∀ op ∈ post, op.AppendsTo 1) →
      runAll Op.exec post s = .ok ((), u) → Appended 1 (dots 1 1 ++ entriesOf 1 1 post) u) ∧
    ∀ pre env' p name post t i v u,
      Admissible 1 [] (pre ++ .makeDir env' p name :: post) → (∀ op ∈ post, op.AppendsTo i) →
      runAll Op.exec pre s = .ok ((), t) → makeDir env' p name t = .ok (i, v) →
      runAll Op.exec post v = .ok ((), u) →
      Appended i (dots i p ++ entriesOf i (1 + creations pre) (.makeDir env' p name :: post))
        u := by
  have hinit := init_of_construct hread hrun
  have hstart := healthy_of_init hinit hreserve
  have hblk : pa2blkno (ofSymbols bin syms) (ofSymbols bin syms).eKernel + 1 < 0x7FDDE :=
    lt_of_lt_of_le (initial_of_init hinit).accepted.lt_reserve hreserve
  obtain ⟨r, w, hfounded⟩ := founded_of_init hinit hblk
  constructor
  · intro post u hops happend hpost
    have hend := run_healthy hstart (by omega) hops hpost
    exact (hfounded.holdsDir.run hstart (by omega) le_rfl hops happend hpost).appended hend
      (by omega)
  · intro pre env' p name post t i v u hops happend hpre hmake hpost
    have hroom := hops.right.room
    rw [List.nil_append, ← List.singleton_append, creations_append] at hroom
    have hone : creations [Op.makeDir env' p name] = 1 := rfl
    have hp : p < 8192 := hops.wellTyped (.makeDir env' p name)
      (List.mem_append_right _ List.mem_cons_self)
    have hbefore := run_healthy hstart (by omega) hops.left hpre
    obtain ⟨rfl, hafter, hdir⟩ := holdsDir_of_makeDir hbefore (by omega) (by omega) hp hmake
    have hpost' : Admissible (1 + creations pre + 1) [] post :=
      Admissible.right [.makeDir env' p name] (Admissible.right _ hops)
    have hend := run_healthy hafter (by omega) hpost' hpost
    have hfinal := hdir.run hafter (by omega) le_rfl hpost' happend hpost
    rw [List.append_assoc] at hfinal
    exact hfinal.appended hend (by omega)

theorem directories_append_sample : ∃ s, construct blankEnv blankImage sampleLines = .ok s ∧
    ∀ post u, Admissible 1 [] post → (∀ op ∈ post, op.AppendsTo 1) →
      runAll Op.exec post s = .ok ((), u) → Appended 1 (dots 1 1 ++ entriesOf 1 1 post) u := by
  obtain ⟨s, hrun⟩ := exists_sample
  exact ⟨s, hrun, (directories_append sample_read hrun (by decide)).1⟩

end Runs

/-! ## A pool of one block -/

/-- The loop of `add_dentry` passes the slots in use. -/
theorem HoldsDir.addDentryFrom_skip (h : HoldsDir i es s) (hown : Ownership lo hi last s)
    (hi' : i ≤ last) (hlen : es.length < 32) (fuel n pos : Nat) (hpos : pos + n = es.length) :
    INode.addDentryFrom i d (fuel + n) pos s = INode.addDentryFrom i d fuel es.length s := by
  induction n generalizing pos with
  | zero => rw [← hpos, Nat.add_zero, Nat.add_zero]
  | succ n ih =>
      have hlt : pos < es.length := by omega
      have hne : es ≠ [] := List.ne_nil_of_length_pos (by omega)
      have hcov : Covered s.mem i (128 * (pos + 1)) := (h.covered hne (by omega)).mono (by omega)
      have hcond : pos ≤ fileSize s.mem i / dentrySize := by
        rw [h.size_eq]
        simp only [dentrySize]
        omega
      have hused : ¬ entryInode (content s.mem i) pos = badInode := h.entryInode_ne_zero hlt
      rw [← Nat.add_assoc, INode.addDentryFrom, bind_eq_ok (load_fSize hown hi'), onlyIf_pos hcond,
        bind_eq_ok (getDentry_covered hown hi' h.type_eq hcov),
        bind_eq_ok (load_entryAddr hown hi' (by omega) (h.mapped hne _ (by omega))), if_neg hused]
      exact ih (pos + 1) (by omega)

/-- `s` has no free block in front of the first page of the inode table, whose bit is
clear. -/
structure Drained (lo last : Nat) (s : ParchFS) : Prop where
  owned : Ownership lo 0x7FDDE last s
  none_free : freeCount 0x7FDDE s.mem = 0
  clear : fsBit s.mem 0x7FDDE = false

/-- On a drained volume a call of `get_blkno` for the second block of the root is handed the
page that holds the root, and the next call stops. -/
theorem Drained.getDentry_eq (h : Drained lo last s) (hlast : 1 ≤ last)
    (hdir : HoldsDir 1 es s) (hlen : es.length = 31)
    (hsecond : slotVal s.mem 1 (.field 1) = 0) :
    INode.getDentry 1 31 s = .error (.assertion "off <= this->f_size") := by
  have hmapped := h.owned.mapped_ge
  have hsize : fileSize s.mem 1 = 3968 := by rw [hdir.size_eq, hlen]
  have hne : es ≠ [] := List.ne_nil_of_length_pos (by omega)
  obtain ⟨m, hm⟩ : ∃ m, m = s.mem.store (INode.fSize 1) 8 4096 := ⟨_, rfl⟩
  obtain ⟨v, hv⟩ : ∃ v, v = s.withMem m := ⟨_, rfl⟩
  obtain ⟨w, hw⟩ : ∃ w, w = s.withMem (allocIntoMem m (INode.directBlkNo 1 1) 0x7FDDE) := ⟨_, rfl⟩
  have hvmapped : 0x80000000 ≤ v.mapped := by rwa [hv, mapped_withMem]
  have hwmapped : 0x80000000 ≤ w.mapped := by rwa [hw, mapped_withMem]
  have hout : ∀ x, x < INode.addr 1 + 96 ∨ INode.addr 1 + 104 ≤ x → m x = s.mem x := fun x hx => by
    rw [INode.addr_eq] at hx
    rw [hm, Mem.store_of_notMem (by rw [INode.fSize_eq]; omega)]
  have hbits : ∀ q, q < 524288 → fsBit m q = fsBit s.mem q := fun q hq =>
    fsBit_congr hq fun x hx hx' => hout x (by rw [INode.addr_eq]; omega)
  have hvsize : load (INode.fSize 1) 8 v = .ok (4096, v) := by
    rw [load_eq (by rw [INode.fSize_eq]; omega), hv, mem_withMem, hm,
      Mem.load_store_of_lt (by omega)]
  have hfield : ∀ k, k < 16 →
      m.load (INode.directBlkNo 1 k) 4 = s.mem.load (INode.directBlkNo 1 k) 4 :=
    fun k hk => Mem.load_congr fun x hx hx' => by
      rw [INode.directBlkNo_eq] at hx hx'
      exact hout x (by rw [INode.addr_eq]; omega)
  have hslot : ∀ k, k < 16 → load (INode.directBlkNo 1 k) 4 v =
      .ok (slotVal s.mem 1 (.field k), v) := fun k hk => by
    rw [load_eq (by rw [INode.directBlkNo_eq]; omega), hv, mem_withMem, hfield k hk]
    rfl
  -- the first block is in place, the second is allocated over the inode
  have hfirst : INode.allocIfBad (INode.directBlkNo 1 0) v = .ok ((), v) := by
    unfold INode.allocIfBad
    rw [bind_eq_ok (hslot 0 (by omega)), onlyIf_neg (by exact hdir.mapped hne 0 (Nat.zero_le _))]
    rfl
  have halloc : INode.allocIfBad (INode.directBlkNo 1 1) v = .ok ((), w) := by
    unfold INode.allocIfBad INode.allocInto
    rw [bind_eq_ok (hslot 1 (by omega)), onlyIf_pos (by exact hsecond),
      bind_eq_ok (allocBlk_eq hvmapped (show 0x7FDDE < 524288 by omega)
        (by rw [hv, mem_withMem, hbits _ (by omega), h.clear]) fun q hq => by
          rw [hv, mem_withMem, hbits q (by omega),
            fsBit_of_freeCount_eq_zero h.none_free hq]),
      store_eq (by rw [mapped_withMem, INode.directBlkNo_eq]; omega), hw, hv]
    rfl
  have hloop : forUpTo 2 (fun k => INode.allocIfBad (INode.directBlkNo 1 k)) v = .ok ((), w) := by
    have hone : forUpTo 1 (fun k => INode.allocIfBad (INode.directBlkNo 1 k)) v = .ok ((), v) := by
      show ((pure () : ParchM Unit) >>= fun _ => INode.allocIfBad (INode.directBlkNo 1 0)) v = _
      rw [bind_eq_ok (show (pure () : ParchM Unit) v = .ok ((), v) from rfl), hfirst]
    show (forUpTo 1 (fun k => INode.allocIfBad (INode.directBlkNo 1 k)) >>= fun _ =>
      INode.allocIfBad (INode.directBlkNo 1 1)) v = _
    rw [bind_eq_ok hone, halloc]
  have hgrow : INode.getBlkno 1 (dentrySize * ((31 + 1) % 2 ^ 32)) true s = .ok (0x7FDDE, w) := by
    have hoff : dentrySize * ((31 + 1) % 2 ^ 32) = 4096 := rfl
    rw [hoff, getBlkno_grow hmapped (by omega) (by omega) (by omega), ← hm, ← hv]
    unfold INode.getBlkno
    rw [bind_eq_ok hvsize, onlyIf_bind_neg (fun hc => Nat.lt_irrefl _ hc.2), bind_eq_ok hvsize,
      bind_eq_ok (assert_eq le_rfl), onlyIf_pos rfl,
      show min directBlkCount (4096 / blkSize + 1) = 2 from rfl, bind_eq_ok hloop,
      if_pos (show 4096 < blkSize * directBlkCount by decide),
      load_eq (by rw [INode.directBlkNo_eq]; simp only [blkSize]; omega), hw, mem_withMem,
      allocIntoMem, show 4096 / blkSize = 1 from rfl, Mem.load_store_of_lt (by omega)]
  -- the page that was handed out is zeroed, and with it the size of the root
  have hzero : load (INode.fSize 1) 8 w = .ok (0, w) := by
    have hcleared : (allocIntoMem m (INode.directBlkNo 1 1) 0x7FDDE).load (INode.fSize 1) 8 = 0 :=
      Mem.load_eq_zero fun x hx hx' => by
        rw [INode.fSize_eq] at hx hx'
        exact allocIntoMem_of_mem (by omega) (by omega) (by rw [INode.directBlkNo_eq]; omega)
    rw [load_eq (by rw [INode.fSize_eq]; omega), hw, mem_withMem, hcleared]
  have hlookup : INode.getBlkno 1 (dentrySize * 31) false w =
      .error (.assertion "off <= this->f_size") := by
    unfold INode.getBlkno
    rw [bind_eq_ok hzero, onlyIf_bind_neg (by simp), bind_eq_ok hzero,
      bind_eq_error (assert_eq_error (by decide))]
  unfold INode.getDentry
  rw [bind_eq_ok (load_fType h.owned hlast), onlyIf_bind_neg (not_not.mpr hdir.type_eq),
    bind_eq_ok hgrow, onlyIf_bind_neg (by decide), bind_eq_error hlookup]

/-- Entries up to the last slot but one are appended without a new block. -/
theorem Drained.fill (h : Drained lo last s) (hlast : 1 ≤ last) (hdir : HoldsDir 1 es s)
    (hne : es ≠ []) (hsecond : slotVal s.mem 1 (.field 1) = 0)
    (hd : d.inode ≠ 0 ∧ d.inode < 2 ^ 32) (n : Nat) (hn : es.length + n ≤ 31) :
    ∃ t, runAll Op.exec (List.replicate n (.addDentry 1 d)) s = .ok ((), t) ∧
      Drained lo last t ∧ HoldsDir 1 (es ++ List.replicate n d) t ∧
      slotVal t.mem 1 (.field 1) = 0 := by
  induction n generalizing es s with
  | zero =>
      exact ⟨s, rfl, h, by rwa [List.replicate_zero, List.append_nil], hsecond⟩
  | succ n ih =>
      obtain ⟨t, hcall, hadded, hfree, hslots⟩ :=
        hdir.addDentry_eq (d := d) h.owned hlast hne (by omega)
      have hdrained : Drained lo last t :=
        ⟨hadded.owned, by rw [hfree, h.none_free],
          by rw [hadded.touches.marks _ le_rfl (by omega), h.clear]⟩
      have hlen : (es ++ [d]).length = es.length + 1 := by
        rw [List.length_append, List.length_singleton]
      obtain ⟨u, hrun, hu⟩ := ih hdrained (hdir.added hlast h.owned.last_lt hadded hd)
        (List.append_ne_nil_of_right_ne_nil _ (List.cons_ne_nil _ _))
        (by rw [hslots _ (field_valid (by omega)), hsecond]) (by omega)
      have hget := getInode_eq h.owned.mapped_ge (show 1 < 32768 by omega)
        ((h.owned.inodeBit_iff 1 (by omega)).mpr hlast)
      have hexec : (Op.addDentry 1 d).exec s = .ok ((), t) := (bind_eq_ok hget).trans hcall
      rw [List.append_assoc, List.singleton_append, ← List.replicate_succ] at hu
      exact ⟨u, (bind_eq_ok hexec).trans hrun, hu⟩

/-- The call for the last slot of the first block fails. -/
theorem Drained.addDentry_eq (h : Drained lo last s) (hlast : 1 ≤ last) (hdir : HoldsDir 1 es s)
    (hlen : es.length = 31) (hsecond : slotVal s.mem 1 (.field 1) = 0) :
    INode.addDentry 1 d s = .error (.assertion "off <= this->f_size") := by
  have hcond : 31 ≤ fileSize s.mem 1 / dentrySize := by
    rw [hdir.size_eq, hlen]
    decide
  have hskip := hdir.addDentryFrom_skip (d := d) h.owned hlast (by omega) (2147483616 + 1) 31 0
    (by omega)
  unfold INode.addDentry
  rw [bind_eq_ok (load_fType h.owned hlast), onlyIf_bind_neg (not_not.mpr hdir.type_eq),
    show 2 ^ 31 = 2147483616 + 1 + 31 from rfl, hskip, hlen, INode.addDentryFrom,
    bind_eq_ok (load_fSize h.owned hlast), onlyIf_pos hcond,
    bind_eq_error (h.getDentry_eq hlast hdir hlen hsecond)]

/-- The new volume of the tight layout is drained. -/
theorem tight_drained (h : TightVolume s) : Drained 0x7FDDC 1 s where
  owned := h.owned
  none_free := h.none_free
  clear := h.clear

/-- On this layout the root takes 29 entries, and the call for the thirtieth neither returns
nor finds the bitmap full. -/
theorem not_directories_append :
    ∃ s u, construct blankEnv blankImage tightLines = .ok s ∧
      runAll Op.exec (List.replicate 29 (.addDentry 1 (dotEntry 1))) s = .ok ((), u) ∧
      INode.addDentry 1 (dotEntry 1) u = .error (.assertion "off <= this->f_size") ∧
      ¬ Appended 1 (dots 1 1 ++ List.replicate 29 (dotEntry 1)) u := by
  obtain ⟨s, hrun, htight⟩ := exists_tight
  have hsecond : slotVal s.mem 1 (.field 1) = 0 := by
    by_contra hne
    exact absurd ((htight.filled_iff _ (field_valid (by omega))).mp hne) (by decide)
  have hd : (dotEntry 1).inode ≠ 0 ∧ (dotEntry 1).inode < 2 ^ 32 := by decide
  obtain ⟨u, hfill, hu, hudir, husecond⟩ :=
    (tight_drained htight).fill le_rfl htight.holdsDir (List.cons_ne_nil _ _) hsecond hd 29
      (by decide)
  have hfail := hu.addDentry_eq (d := dotEntry 1) le_rfl hudir (by decide) husecond
  refine ⟨s, u, hrun, hfill, hfail, fun happended => ?_⟩
  rcases happended.next _ hd.1 hd.2 with ⟨t, hok, -⟩ | hfull
  · rw [hfail] at hok
    cases hok
  · rw [hfail] at hfull
    cases hfull

end ParchTestbench
