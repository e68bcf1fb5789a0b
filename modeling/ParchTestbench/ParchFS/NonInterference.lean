import ParchTestbench.ParchFS.BlockOwnership

/-!
# ParchFS: what a call leaves alone

Files, directories, index blocks, metadata and the kernel lie in one image.  This file
states what a call on one inode must not change, and derives it from the effect of the
call.  A reserve that begins in the first page is again the one exception.

Main results:

- Theorem `Op.Effect.nonInterfering`: a call on a healthy volume changes its own inode
  only.
- Theorem `nonInterfering_iff`: every call of a run does, exactly when the reserve begins
  behind the first page.
-/

namespace ParchTestbench

open ParchFS Program

variable {lo hi last i : Nat} {base s t u w : ParchFS} {env : Env} {op : Op}

namespace ParchFS.Op

/-- The inode that a call works on; a creation works on the parent. -/
def subject : Op → Nat
  | makeDir _ parent _ => parent
  | makeFile _ parent _ => parent
  | write inode _ _ => inode
  | getBlkno inode _ => inode
  | getDentry inode _ => inode
  | addDentry inode _ => inode

/-- Is the call one of `write`, `make_file` and `make_dir`? -/
def changes : Op → Bool
  | makeDir .. => true
  | makeFile .. => true
  | write .. => true
  | _ => false

end ParchFS.Op

/-- From `s` to `t` the call `op` has left alone what is not its own: the kernel is that
of the image `bin`, the other inodes keep their fields and contents, and the parent of a
new inode keeps the entries that it had. -/
structure NonInterfering (bin : MMAPBinContent) (op : Op) (s t : ParchFS) : Prop where
  kernel : ∀ x, x < s.eKernel - s.sKernel → t.mem x = bin.mem x
  fields : ∀ j, Allocated s j → j ≠ op.subject →
    ∀ x, INode.addr j ≤ x → x < INode.addr j + 256 → t.mem x = s.mem x
  contents : ∀ j, Allocated s j → j ≠ op.subject → content t.mem j = content s.mem j
  entries : op.creates = true → Allocated s op.subject →
    ∀ l, entryInode (content s.mem op.subject) l ≠ 0 →
      ∀ x, 128 * l ≤ x → x < 128 * (l + 1) →
        content t.mem op.subject x = content s.mem op.subject x

/-! ## One call -/

/-- Work on one inode leaves the others alone. -/
theorem Touches.keeps (h : Touches lo hi last i s t) {j : Nat} (hj : j ≤ last) (hlast : last < 8192)
    (hne : j ≠ i) :
    (∀ x, INode.addr j ≤ x → x < INode.addr j + 256 → t.mem x = s.mem x) ∧
      content t.mem j = content s.mem j :=
  ⟨fun _ hx hx' => h.inode (by omega) hne hx hx', h.others j hj hne⟩

/-- So does the creation of an inode. -/
theorem Spawned.keeps {ty : FType} {size links : Nat} (h : Spawned lo hi last ty size links s t)
    (hown : Ownership lo hi last s) (hlast : last < 8191) {j : Nat} (hj : j ≤ last) :
    (∀ x, INode.addr j ≤ x → x < INode.addr j + 256 → t.mem x = s.mem x) ∧
      ParchTestbench.content t.mem j = ParchTestbench.content s.mem j :=
  ⟨fun _ hx hx' => h.inode hj hlast hx hx', h.content hown hj⟩

/-- The other inodes keep their bytes and their contents. -/
theorem ParchFS.Op.Effect.keeps (heff : op.Effect lo hi last s t) (hown : Ownership lo hi last s)
    (hlast : last + op.added < 8192) {j : Nat} (hj : j ≤ last) (hne : j ≠ op.subject) :
    (∀ x, INode.addr j ≤ x → x < INode.addr j + 256 → t.mem x = s.mem x) ∧
      content t.mem j = content s.mem j := by
  have hlt := hown.last_lt
  cases op with
  | makeDir env p name =>
      rcases heff with ⟨-, -, -, v, w, k, hv, hw, hk⟩
      have hroom : last < 8191 := Nat.lt_of_succ_lt_succ hlast
      obtain ⟨hfresh, hfresh'⟩ := hv.keeps hown hroom hj
      obtain ⟨hdots, hdots'⟩ := hw.touches.keeps (Nat.le_succ_of_le hj) hlast (by omega)
      obtain ⟨hentry, hentry'⟩ := hk.touches.keeps (Nat.le_succ_of_le hj) hlast hne
      refine ⟨fun x hx hx' => ?_, hentry'.trans (hdots'.trans hfresh')⟩
      exact (hentry x hx hx').trans ((hdots x hx hx').trans (hfresh x hx hx'))
  | makeFile env p name =>
      rcases heff with ⟨-, v, k, hv, hk⟩
      have hroom : last < 8191 := Nat.lt_of_succ_lt_succ hlast
      obtain ⟨hfresh, hfresh'⟩ := hv.keeps hown hroom hj
      obtain ⟨hentry, hentry'⟩ := hk.touches.keeps (Nat.le_succ_of_le hj) hlast hne
      exact ⟨fun x hx hx' => (hentry x hx hx').trans (hfresh x hx hx'), hentry'.trans hfresh'⟩
  | write i off buf => exact heff.2.touches.keeps hj hlt hne
  | getBlkno i off => exact heff.2.grown.grows.toTouches.keeps hj hlt hne
  | getDentry i pos => exact heff.2.2.grown.grows.toTouches.keeps hj hlt hne
  | addDentry i d =>
      rcases heff with ⟨-, -, k, hk⟩
      exact hk.touches.keeps hj hlt hne

/-- A new entry is laid over a free slot, so the entries in use keep their bytes. -/
theorem Added.entry_eq {pos j l x : Nat} {d : DEntry} (h : Added lo hi last i pos j d s t)
    (hused : entryInode (content s.mem i) l ≠ 0) (hx : 128 * l ≤ x) (hx' : x < 128 * (l + 1)) :
    content t.mem i x = content s.mem i x := by
  have hne : l ≠ j := by
    rintro rfl
    exact hused h.empty
  rw [h.content_eq]
  exact Mem.copy_of_notMem (by rw [d.length_bytes]; omega)

/-- The parent of a new inode keeps the entries that it had. -/
theorem ParchFS.Op.Effect.entries (heff : op.Effect lo hi last s t) (hown : Ownership lo hi last s)
    (hcreates : op.creates = true) (hle : op.subject ≤ last) {l x : Nat}
    (hused : entryInode (content s.mem op.subject) l ≠ 0) (hx : 128 * l ≤ x)
    (hx' : x < 128 * (l + 1)) : content t.mem op.subject x = content s.mem op.subject x := by
  cases op with
  | makeDir env p name =>
      rcases heff with ⟨-, -, -, v, w, k, hv, hw, hk⟩
      have hp : p ≤ last := hle
      have hsame : content w.mem p = content s.mem p :=
        (hw.touches.others p (by omega) (by omega)).trans (hv.content hown hp)
      have hkeep := hk.entry_eq (by rw [hsame]; exact hused) hx hx'
      rwa [hsame] at hkeep
  | makeFile env p name =>
      rcases heff with ⟨-, v, k, hv, hk⟩
      have hsame : content v.mem p = content s.mem p := hv.content hown hle
      have hkeep := hk.entry_eq (by rw [hsame]; exact hused) hx hx'
      rwa [hsame] at hkeep
  | write _ _ _ => cases hcreates
  | getBlkno _ _ => cases hcreates
  | getDentry _ _ => cases hcreates
  | addDentry _ _ => cases hcreates

/-- A call on a healthy volume changes its own inode only. -/
theorem ParchFS.Op.Effect.nonInterfering (heff : op.Effect lo hi last s t)
    (hs : Healthy lo hi last base s) (hlast : last + op.added < 8192)
    (hkernel : base.eKernel - base.sKernel ≤ 4096 * (lo + 1)) :
    NonInterfering base.mmapBin op s t := by
  have hown := hs.owned
  have ht := heff.healthy hs hlast
  refine ⟨fun x hx => ?_, fun j hj hne => ?_, fun j hj hne => ?_, fun hcreates hp l hused x => ?_⟩
  · rw [hs.state] at hx
    exact ht.low x (lt_of_lt_of_le hx hkernel)
  · exact (heff.keeps hown hlast (hown.allocated_iff.mp hj) hne).1
  · exact (heff.keeps hown hlast (hown.allocated_iff.mp hj) hne).2
  · exact heff.entries hown hcreates (hown.allocated_iff.mp hp) hused

/-! ## Every call of a run -/

section Runs

variable {bin : MMAPBinContent} {lines : List (List Char)} {syms : Symbols} {ops : List Op}

/-- A reserve behind the first page: no call of a run disturbs what is not its own. -/
theorem LinkedLayout.nonInterfering (hlayout : LinkedLayout syms)
    (hinit : init env (ofSymbols bin syms) = .ok ((), s)) (hpage : 0x80001000 ≤ syms.sReserve)
    (hops : Admissible 1 [] (ops ++ [op])) (hrun : runAll Op.exec ops s = .ok ((), u))
    (hexec : op.exec u = .ok ((), t)) : NonInterfering bin op u t := by
  have hreserve := hlayout.reserveStart_le bin hpage
  have hblk := hlayout.pa2blkno_eKernel bin
  have hsk := hlayout.sKernel_eq
  have hroom := hops.room
  rw [List.nil_append, creations_concat] at hroom
  have hstart := healthy_of_init hinit (by omega)
  have hbefore : Admissible 1 [] ops := by
    refine ⟨fun op' hop' => hops.wellTyped op' (List.mem_append_left _ hop'), ?_⟩
    rw [List.nil_append]
    omega
  have hhealthy := run_healthy hstart (by omega) hbefore hrun
  have htyped := hops.wellTyped op (List.mem_append_right _ (List.mem_singleton_self op))
  have heff := Op.effect_of_exec hhealthy (by omega) (by omega) htyped hexec
  refine heff.nonInterfering hhealthy (by omega) ?_
  show syms.eKernel - syms.sKernel ≤ 4096 * (pa2blkno (ofSymbols bin syms) syms.eKernel + 1)
  rw [hblk, hsk]
  omega

/-- The calls up to the one that runs past the pool. -/
def brinkOps (env : Env) : List Op :=
  FilesMade.ops env 2 exhaustingFiles ++ [.makeFile env rootInode (fillerName 504)]

theorem admissible_brinkOps : Admissible 1 [] (brinkOps env ++ [.write 506 0 [0]]) := by
  have hsame : brinkOps env ++ [.write 506 0 [0]] = exhaustingOps env := by
    rw [exhaustingOps, FilesMade.ops_append, length_exhaustingFiles, brinkOps, List.append_assoc]
    rfl
  rw [hsame]
  exact admissible_exhaustingOps

theorem Brink.runAll_eq (h : Brink env u w) : runAll Op.exec (brinkOps env) u = .ok ((), w) := by
  obtain ⟨v, hmade, hmake, -⟩ := h.made
  have hlast : (Op.makeFile env rootInode (fillerName 504)).exec v = .ok ((), w) := bind_eq_ok hmake
  rw [brinkOps, runAll_append, bind_eq_ok hmade.runAll_eq]
  exact bind_eq_ok hlast

/-- The write that runs past the pool clears the type of the root directory. -/
theorem Brink.interferes (h : Brink env u w) :
    ¬ NonInterfering bin (.write 506 0 [0]) w (w.withMem (overrunMem w.mem 506)) := by
  intro hkeep
  have hroot : Allocated w 1 := h.owned.allocated_iff.mpr (by omega)
  have hbytes := hkeep.fields 1 hroot (show 1 ≠ 506 by omega)
  have hdir : fileType w.mem 1 = 16 := h.dir
  have hsame : fileType (overrunMem w.mem 506) 1 = fileType w.mem 1 :=
    Mem.load_congr fun x hx hx' => hbytes x
      (by rw [INode.fType_eq] at hx; rw [INode.addr_eq]; omega)
      (by rw [INode.fType_eq] at hx'; rw [INode.addr_eq]; omega)
  have hzero : fileType (overrunMem w.mem 506) 1 = 0 := fileType_overrunMem
  omega

/-- A reserve in the first page: the run up to the brink is followed by a call that
interferes. -/
theorem LinkedLayout.interferes (hlayout : LinkedLayout syms)
    (hinit : init env (ofSymbols bin syms) = .ok ((), s)) (hpage : syms.sReserve < 0x80001000) :
    ∃ u t, runAll Op.exec (brinkOps env) s = .ok ((), u) ∧
      (Op.write 506 0 [0]).exec u = .ok ((), t) ∧ ¬ NonInterfering bin (.write 506 0 [0]) u t := by
  obtain ⟨w, hw⟩ := hlayout.exists_brink hinit hpage
  obtain ⟨-, -, -, hget⟩ := hw.made
  have hexec : (Op.write 506 0 [0]).exec w = .ok ((), w.withMem (overrunMem w.mem 506)) :=
    (bind_eq_ok hget).trans hw.overrun
  exact ⟨w, _, hw.runAll_eq, hexec, hw.interferes⟩

/-- Every call of a run leaves alone what is not its own exactly when the reserve begins
behind the first page. -/
theorem nonInterfering_iff (hread : Symbols.read env lines = .ok syms)
    (hlayout : LinkedLayout syms) (hrun : construct env bin lines = .ok s) :
    (∀ ops op u t, Admissible 1 [] (ops ++ [op]) → op.changes = true →
      runAll Op.exec ops s = .ok ((), u) → op.exec u = .ok ((), t) → NonInterfering bin op u t) ↔
      0x80001000 ≤ syms.sReserve := by
  have hinit := init_of_construct hread hrun
  constructor
  · intro hall
    by_contra hpage
    obtain ⟨u, t, hops, hexec, hnot⟩ := hlayout.interferes hinit (by omega)
    exact hnot (hall _ _ u t admissible_brinkOps rfl hops hexec)
  · intro hpage ops op u t hops _ hbefore hexec
    exact hlayout.nonInterfering hinit hpage hops hbefore hexec

theorem nonInterfering_iff_sample : ∃ s, construct blankEnv blankImage sampleLines = .ok s ∧
    ((∀ ops op u t, Admissible 1 [] (ops ++ [op]) → op.changes = true →
      runAll Op.exec ops s = .ok ((), u) → op.exec u = .ok ((), t) →
        NonInterfering blankImage op u t) ↔
      0x80001000 ≤ (layout 0x80200000 0xffdde000).sReserve) := by
  obtain ⟨s, hrun⟩ := exists_sample
  exact ⟨s, hrun, nonInterfering_iff sample_read sample_linked hrun⟩

/-- With an empty kernel and a one-byte gap, a write to the last file clears the type of
the root directory. -/
theorem not_nonInterfering_wrapped : LinkedLayout (layout 0x80000000 0x80000001) ∧
    ∃ s u t, construct blankEnv blankImage wrappedLines = .ok s ∧
      Admissible 1 [] (brinkOps blankEnv ++ [.write 506 0 [0]]) ∧
      runAll Op.exec (brinkOps blankEnv) s = .ok ((), u) ∧
      (Op.write 506 0 [0]).exec u = .ok ((), t) ∧
      ¬ NonInterfering blankImage (.write 506 0 [0]) u t := by
  obtain ⟨s, hrun, hinit⟩ := exists_wrapped
  obtain ⟨u, t, hops, hexec, hnot⟩ := wrapped_linked.interferes hinit (by decide)
  exact ⟨wrapped_linked, s, u, t, hrun, admissible_brinkOps, hops, hexec, hnot⟩

end Runs

end ParchTestbench
