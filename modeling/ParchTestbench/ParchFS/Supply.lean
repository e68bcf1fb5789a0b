import ParchTestbench.ParchFS.History

/-!
# ParchFS: creations with blocks to spare

How many blocks a creation takes, to the block.  A creation that finds the blocks in the
pool does what it should, whether or not the metadata behind the pool is marked.

Main results:

- Theorem `HoldsDir.addDentry_supplied`: `add_dentry` below the double-indirect range.
- Theorem `makeDir_supplied` and `makeFile_supplied`: so are the creations.
-/

namespace ParchTestbench

open ParchFS Program

variable {lo hi last i p : Nat} {base s t : ParchFS} {env : Env} {d : DEntry} {es : List DEntry}
  {op : Op} {name : List UInt8}

/-- The blocks that directory `i` lacks for one more entry. -/
def entryCost (m : Mem) (i : Nat) : Nat := emptySlots m i (neededSlots (fileSize m i + 128))

namespace HoldsDir

/-- A directory below the double-indirect range has all its slots. -/
theorem covered (h : HoldsDir i es s) (hne : es ≠ []) (hlt : 128 * es.length < 4259840) :
    Covered s.mem i (128 * es.length) :=
  ⟨hlt, h.size_eq.ge, filled_of_mapped hlt (h.mapped hne)⟩

theorem entryCost_eq (h : HoldsDir i es s) :
    entryCost s.mem i = emptySlots s.mem i (neededSlots (128 * (es.length + 1))) := by
  rw [entryCost, h.size_eq]
  rfl

/-- `add_dentry` fills exactly the slots that its entry needs. -/
theorem addDentry_supplied (h : HoldsDir i es s) (hown : Ownership lo hi last s) (hi' : i ≤ last)
    (hlt : 128 * (es.length + 1) < 4259840) (hroom : Room hi (entryCost s.mem i) s.mem) :
    Outcome (INode.addDentry i d) s
      (fun _ t => Added lo hi last i 0 es.length d s t ∧
        ∃ v, Fills lo hi last i (128 * (es.length + 1)) (neededSlots (128 * (es.length + 1))) s v ∧
          DataWrite lo hi last i (128 * es.length) d.bytes v t)
      (Exhausted hi (entryCost s.mem i) s.mem) := by
  rw [h.entryCost_eq] at hroom ⊢
  refine (addDentry_outcome_of_lt hown hi' h.type_eq (fun l hl => h.entryInode_ne_zero hl)
    (h.entryInode_of_ge le_rfl) h.size_eq.ge
    (fun hpos => h.covered (List.ne_nil_of_length_pos hpos) (by omega)) hlt hroom).mono ?_
    fun _ he => he
  rintro _ t ⟨v, hv, ht⟩
  rw [h.size_eq, max_eq_right (by omega)] at hv
  refine ⟨⟨ht.owned, hv.grows.toTouches.trans ht.touches, ?_, ?_, fun k hk => ?_, Nat.zero_le _,
    fun l _ hl => h.entryInode_ne_zero hl, h.entryInode_of_ge le_rfl, by omega⟩, v, hv, ht⟩
  · rw [ht.content_eq, hv.grows.own]
  · rw [ht.size_eq, hv.size, h.size_eq, max_eq_right (by omega)]
  · rw [fileBlk, ht.slots_eq i hi' _ (dataSlot_valid (by omega))]
    exact fileBlk_ne_zero_of_needed hlt hv.filled hk

/-- While the first block has room for the entry and for one more, the call needs no
block. -/
theorem addDentry_eq (h : HoldsDir i es s) (hown : Ownership lo hi last s) (hi' : i ≤ last)
    (hne : es ≠ []) (hlen : es.length < 31) :
    ∃ t, INode.addDentry i d s = .ok ((), t) ∧ Added lo hi last i 0 es.length d s t ∧
      freeCount hi t.mem = freeCount hi s.mem ∧
      ∀ σ : Slot, σ.Valid → slotVal t.mem i σ = slotVal s.mem i σ := by
  have hslot : slotVal s.mem i (.field 0) ≠ 0 := h.mapped hne 0 (Nat.zero_le _)
  have hneeded : neededSlots (128 * (es.length + 1)) = {.field 0} :=
    neededSlots_of_lt (by omega)
  have hnone : entryCost s.mem i = 0 := by
    rw [h.entryCost_eq, hneeded, emptySlots_singleton, if_neg hslot]
  have hcall := h.addDentry_supplied (d := d) hown hi' (by omega) (Or.inr (by omega))
  obtain ⟨⟨⟩, t, hrun, hadded, v, hv, ht⟩ :=
    (hcall.mono (fun _ _ hq => hq) fun _ he => by
      have hlt := he.2
      omega).exists_ok
  have hcount := hv.count
  rw [← h.entryCost_eq, hnone, Nat.add_zero] at hcount
  refine ⟨t, hrun, hadded, by rw [ht.free_eq, hcount], fun σ hσ => ?_⟩
  rw [ht.slots_eq i hi' σ hσ]
  by_cases hfirst : σ = .field 0
  · rw [hfirst]
    exact hv.grows.keep hi' (field_valid (by omega)) hslot
  · exact hv.others σ hσ fun hmem => hfirst (Finset.mem_singleton.mp (hneeded ▸ hmem))

/-- A new directory whose entry fits behind the others of the parent's first block. -/
theorem exists_makeDir (env : Env) (h : HoldsDir p es s) (hown : Ownership lo hi last s)
    (hlast : last < 8191) (hp : 0 < p) (hp' : p ≤ last) (hne : es ≠ []) (hlen : es.length < 31)
    (hfree : 1 ≤ freeCount hi s.mem) (hname : name.length ≤ 118) :
    ∃ no t, makeDir env p name s = .ok (no, t) := by
  have hcall : Outcome (makeDir env p name) s (fun _ _ => True) (fun _ => False) := by
    refine makeDir_spawn hown hlast (Or.inr hfree) (fun e hn => hn ⟨hname, by omega⟩)
      (fun e he => absurd he.2 (by omega)) ?_
    intro v w _ _ hv hw
    have hdir := h.same (sameInode_of_dotted hv hw hown hlast hp')
    obtain ⟨t, hadd, _⟩ := hdir.addDentry_eq (d := dirEntry env (last + 1) name) hw.owned
      (by omega) hne hlen
    rw [if_neg (show ¬ last + 1 = rootInode by simp only [rootInode]; omega)]
    refine Outcome.bind_ok (getInode_eq hw.owned.mapped_ge (by omega)
      ((hw.owned.inodeBit_iff p (by omega)).mpr (by omega))) ?_
    exact Outcome.bind_ok hadd (Outcome.pure trivial)
  obtain ⟨no, t, hrun, _⟩ := hcall.exists_ok
  exact ⟨no, t, hrun⟩

end HoldsDir

/-! ## Creations -/

/-- `make_dir` takes one block for the new directory, and those of its entry. -/
theorem makeDir_supplied (hown : Ownership lo hi last s) (hlast : last < 8191) (hp : 0 < p)
    (hp' : p ≤ last) (hdir : HoldsDir p es s) (hlt : 128 * (es.length + 1) < 4259840)
    (hroom : Room hi (1 + entryCost s.mem p) s.mem) :
    Outcome (makeDir env p name) s
      (fun no t => no = last + 1 ∧ (Op.makeDir env p name).Effect lo hi last s t ∧
        freeCount hi s.mem = freeCount hi t.mem + (1 + entryCost s.mem p))
      (fun e => name.length ≤ 118 → e = blockBitmapFull) := by
  refine makeDir_spawn hown hlast (hroom.imp_right fun hle => by omega)
    (fun e hn hname => absurd ⟨hname, by omega⟩ hn) (fun e he _ => he.1) ?_
  intro v w hname hne hv hw
  have hsame := sameInode_of_dotted hv hw hown hlast hp'
  have hdir' := hdir.same hsame
  have hcost : entryCost w.mem p = entryCost s.mem p := by
    rw [hdir'.entryCost_eq, hdir.entryCost_eq]
    refine emptySlots_congr fun σ hσ => ?_
    have hvalid := neededSlots_valid _ σ hσ
    rw [hw.touches.slots p (by omega) σ hvalid (Or.inl (by omega)), hv.slots p hp' σ hvalid]
  have hcount := hw.count
  rw [hv.freeCount hlast] at hcount
  have hroom' : Room hi (entryCost w.mem p) w.mem := by
    rw [hcost]
    exact hroom.imp (fun hclosed => hw.touches.closed (hv.closed hlast hclosed)) fun hle => by omega
  rw [if_neg (show ¬ last + 1 = rootInode by simp only [rootInode]; omega)]
  refine Outcome.bind_ok (getInode_eq hw.owned.mapped_ge (by omega)
    ((hw.owned.inodeBit_iff p (by omega)).mpr (by omega))) ?_
  refine Outcome.bind ((hdir'.addDentry_supplied hw.owned (by omega) hlt hroom').mono ?_
    fun e he _ => he.1)
  rintro _ t ⟨hadded, x, hx, ht⟩
  refine Outcome.pure ⟨rfl, ⟨hname, hne, by omega, v, w, _, hv, hw, hadded⟩, ?_⟩
  have hfills := hx.count
  rw [← hdir'.entryCost_eq, hcost] at hfills
  rw [ht.free_eq]
  omega

/-- `make_file` takes the blocks of its entry. -/
theorem makeFile_supplied (hown : Ownership lo hi last s) (hlast : last < 8191) (hp : 0 < p)
    (hp' : p ≤ last) (hdir : HoldsDir p es s) (hlt : 128 * (es.length + 1) < 4259840)
    (hroom : Room hi (entryCost s.mem p) s.mem) :
    Outcome (makeFile env p name) s
      (fun no t => no = last + 1 ∧ (Op.makeFile env p name).Effect lo hi last s t ∧
        freeCount hi s.mem = freeCount hi t.mem + entryCost s.mem p)
      (fun e => name.length ≤ 118 → e = blockBitmapFull) := by
  refine makeFile_spawn hown hlast (by omega)
    (fun e hn hname => absurd ⟨hname, by omega, hp', hdir.type_eq⟩ hn) ?_
  intro v hvalid hv
  obtain ⟨hbytes, hcontent⟩ := hv.keeps hown hlast hp'
  have hdir' := hdir.same (SameInode.of_bytes hbytes hcontent fun σ hσ => hv.slots p hp' σ hσ)
  have hcost : entryCost v.mem p = entryCost s.mem p := by
    rw [hdir'.entryCost_eq, hdir.entryCost_eq]
    exact emptySlots_congr fun σ hσ => hv.slots p hp' σ (neededSlots_valid _ σ hσ)
  have hroom' : Room hi (entryCost v.mem p) v.mem := by
    rw [hcost]
    exact hv.room hlast hroom
  refine (hdir'.addDentry_supplied hv.owned (by omega) hlt hroom').mono ?_ fun e he _ => he.1
  rintro _ t ⟨hadded, x, hx, ht⟩
  refine ⟨rfl, ⟨hvalid, v, _, hv, hadded⟩, ?_⟩
  have hfills := hx.count
  rw [← hdir'.entryCost_eq, hcost, hv.freeCount hlast] at hfills
  rw [ht.free_eq]
  omega

end ParchTestbench
