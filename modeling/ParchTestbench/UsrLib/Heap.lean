import ParchTestbench.Machine.ByteMemory
import ParchTestbench.Machine.Settling

/-!
# The C user library: the memory allocator

`tb_malloc` and `tb_free` of the parch build: a ring of free blocks in the order of their
addresses, which `tb_sbrk` makes longer.  A block starts with a header of 16 bytes, the next
header in the ring and the size of the block in headers.  The kernel is a parameter: its answer
to a call of `tb_sbrk` depends on the calls before.

Main results:

- Theorems `tbFree_stableAt` and `tbMalloc_stableAt`: what a call does with enough fuel it does
  with any more.
-/

namespace ParchTestbench

namespace Heap

open Program

/-! ## The program and the kernel -/

/-- What `tb_sbrk` answers: memory from an address on, or the value of a failure. -/
inductive Break
  | granted (address : Nat)
  | failed (value : Nat)
  deriving DecidableEq

/-- The pointer that the program gets for an answer. -/
def Break.value : Break → Nat
  | granted address => address
  | failed value => value

/-- A call of `tb_sbrk`: the bytes asked for and the answer. -/
structure Call where
  bytes : Nat
  answer : Break
  deriving DecidableEq

/-- The kernel answers a call by the calls before it, the last one first. -/
abbrev Kernel := List Call → Nat → Break

/-- The byte at `x` is one of those that a call granted. -/
def Call.Grants (call : Call) (x : Nat) : Prop :=
  match call.answer with
  | .granted address => address ≤ x ∧ x < address + call.bytes
  | .failed _ => False

instance (call : Call) (x : Nat) : Decidable (call.Grants x) :=
  match h : call.answer with
  | .granted address =>
      decidable_of_iff (address ≤ x ∧ x < address + call.bytes) (by simp [Call.Grants, h])
  | .failed _ => isFalse (by simp [Call.Grants, h])

/-- The byte at `x` was granted by one of the calls. -/
def Granted (calls : List Call) (x : Nat) : Prop := ∃ call ∈ calls, call.Grants x

instance (calls : List Call) (x : Nat) : Decidable (Granted calls x) :=
  inferInstanceAs (Decidable (∃ call ∈ calls, call.Grants x))

/-- The memory, the variable `freep` and the calls of `tb_sbrk` so far. -/
structure State where
  mem : Mem
  freep : Nat
  calls : List Call

/-- Why a call does not return: an access to memory that the program does not have, after the
calls of `tb_sbrk` so far, or a loop that goes on. -/
inductive Crash
  | fault (address : Nat) (calls : List Call)
  | fuel
  deriving DecidableEq

/-- A program over the heap. -/
abbrev HeapM := Program State Crash

/-! ## Headers -/

section Headers

variable (base : Nat)

/-- The eight bytes at `a` are in the header `base` or in memory that was granted. -/
def Accessible (calls : List Call) (a : Nat) : Prop :=
  a + 8 ≤ 2 ^ 64 ∧ ∀ k < 8, (base ≤ a + k ∧ a + k < base + 16) ∨ Granted calls (a + k)

instance (calls : List Call) (a : Nat) : Decidable (Accessible base calls a) :=
  inferInstanceAs (Decidable (_ ∧ _))

/-- Read a `u64`. -/
def load (a : Nat) : HeapM Nat := fun s =>
  if Accessible base s.calls a then .ok (s.mem.load a 8, s) else .error (.fault a s.calls)

/-- Write a `u64`. -/
def store (a v : Nat) : HeapM Unit := fun s =>
  if Accessible base s.calls a then
    .ok ((), { s with mem := s.mem.store a 8 v })
  else
    .error (.fault a s.calls)

/-- `h->s.ptr`. -/
def getPtr (h : Nat) : HeapM Nat := load base h

/-- `h->s.size`. -/
def getSize (h : Nat) : HeapM Nat := load base ((h + 8) % 2 ^ 64)

/-- `h->s.ptr = v`. -/
def setPtr (h v : Nat) : HeapM Unit := store base h v

/-- `h->s.size = v`. -/
def setSize (h v : Nat) : HeapM Unit := store base ((h + 8) % 2 ^ 64) v

/-- `freep`. -/
def getFreep : HeapM Nat := fun s => .ok (s.freep, s)

/-- `freep = p`. -/
def setFreep (p : Nat) : HeapM Unit := fun s => .ok ((), { s with freep := p })

/-- `h + n` for a pointer to a header. -/
def shift (h n : Nat) : Nat := (h + 16 * n) % 2 ^ 64

/-! ## `tb_free` -/

/-- The loop of `tb_free` for the header before `bp`. -/
def findPlace (bp : Nat) : Nat → Nat → HeapM Nat
  | 0, _ => abort .fuel
  | fuel + 1, p => do
      let after ← getPtr base p
      if bp > p ∧ bp < after then
        return p
      else if p ≥ after ∧ (bp > p ∨ bp < after) then
        return p
      else
        findPlace bp fuel after

/-- The first branch of `tb_free`: `bp` takes over the block behind it or points to it. -/
def mergeUpper (bp p : Nat) : HeapM Unit := do
  let size ← getSize base bp
  let after ← getPtr base p
  if shift bp size = after then
    let more ← getSize base after
    setSize base bp ((size + more) % 2 ^ 64)
    let after ← getPtr base p
    setPtr base bp (← getPtr base after)
  else
    setPtr base bp after

/-- The second branch of `tb_free`: `p` takes over `bp` or points to it. -/
def mergeLower (bp p : Nat) : HeapM Unit := do
  let size ← getSize base p
  if shift p size = bp then
    let more ← getSize base bp
    setSize base p ((size + more) % 2 ^ 64)
    setPtr base p (← getPtr base bp)
  else
    setPtr base p bp

/-- `tb_free`. -/
def tbFree (fuel ap : Nat) : HeapM Unit := do
  let bp := (ap + (2 ^ 64 - 16)) % 2 ^ 64
  let freep ← getFreep
  let p ← findPlace base bp fuel freep
  mergeUpper base bp p
  mergeLower base bp p
  setFreep p

/-! ## `tb_malloc` -/

variable (kernel : Kernel)

/-- `tb_sbrk`. -/
def tbSbrk (bytes : Nat) : HeapM Nat := fun s =>
  .ok ((kernel s.calls bytes).value,
    { s with calls := ⟨bytes, kernel s.calls bytes⟩ :: s.calls })

/-- What `morecore` makes of the units asked for. -/
def coreUnits (nu : Nat) : Nat := if nu < 4096 then 4096 else nu

/-- `morecore`. -/
def morecore (fuel nu : Nat) : HeapM Nat := do
  let p ← tbSbrk kernel (coreUnits nu * 16)
  if p = 2 ^ 64 - 1 then
    return 0
  else
    setSize base p (coreUnits nu)
    tbFree base fuel (shift p 1)
    getFreep

/-- The units for some bytes and a header. -/
def nunits (nbytes : Nat) : Nat := (nbytes + 16 - 1) % 2 ^ 64 / 16 + 1

/-- The start of `tb_malloc`: the ring is made when there is none. -/
def startRing : HeapM Nat := do
  let freep ← getFreep
  if freep = 0 then
    setFreep base
    setPtr base base base
    setSize base base 0
    return base
  else
    return freep

/-- The block at `p` is large enough: unlink it or cut its end off. -/
def carve (n prevp p : Nat) : HeapM Nat := do
  let size ← getSize base p
  if size = n then
    setPtr base prevp (← getPtr base p)
    setFreep prevp
    return shift p 1
  else
    setSize base p (size - n)
    let rest ← getSize base p
    let p := shift p rest
    setSize base p n
    setFreep prevp
    return shift p 1

/-- The loop of `tb_malloc`. -/
def search (n : Nat) : Nat → Nat → Nat → HeapM Nat
  | 0, _, _ => abort .fuel
  | fuel + 1, prevp, p => do
      let size ← getSize base p
      if size ≥ n then
        carve base n prevp p
      else
        let freep ← getFreep
        if p = freep then
          -- the parameter of `morecore` is a `u32`
          let p ← morecore base kernel fuel (n % 2 ^ 32)
          if p = 0 then
            return 0
          else
            search n fuel p (← getPtr base p)
        else
          search n fuel p (← getPtr base p)

/-- `tb_malloc`. -/
def tbMalloc (fuel nbytes : Nat) : HeapM Nat := do
  let prevp ← startRing base
  search base kernel (nunits nbytes) fuel prevp (← getPtr base prevp)

end Headers

/-! ## Enough fuel -/

section Stability

variable {base : Nat} {kernel : Kernel}

theorem findPlace_stableAt (bp fuel p : Nat) :
    StableAt .fuel (fun k => findPlace base bp k p) fuel := by
  induction fuel generalizing p with
  | zero => exact fun _ => Or.inl rfl
  | succ fuel ih =>
      have hstep : StableAt .fuel (fun k => findPlace base bp (k + 1) p) fuel :=
        .bind (.const _) fun after => .ite (.const _) (.ite (.const _) (ih after))
      exact hstep

/-- What `tb_free` does with enough fuel it does with any more. -/
theorem tbFree_stableAt (fuel ap : Nat) : StableAt .fuel (fun k => tbFree base k ap) fuel :=
  .bind (.const _) fun _ => .bind (findPlace_stableAt _ fuel _) fun _ => .const _

theorem morecore_stableAt (fuel nu : Nat) :
    StableAt .fuel (fun k => morecore base kernel k nu) fuel :=
  .bind (.const _) fun _ => .ite (.const _) (.bind (.const _) fun _ =>
    .bind (tbFree_stableAt fuel _) fun _ => .const _)

theorem search_stableAt (n fuel prevp p : Nat) :
    StableAt .fuel (fun k => search base kernel n k prevp p) fuel := by
  induction fuel generalizing prevp p with
  | zero => exact fun _ => Or.inl rfl
  | succ fuel ih =>
      have hnext (q : Nat) : StableAt .fuel
          (fun k => getPtr base q >>= fun after => search base kernel n k q after) fuel :=
        .bind (.const _) fun after => ih q after
      have hstep : StableAt .fuel (fun k => search base kernel n (k + 1) prevp p) fuel :=
        .bind (.const _) fun _ => .ite (.const _) (.bind (.const _) fun _ =>
          .ite (.bind (morecore_stableAt fuel _) fun q => .ite (.const _) (hnext q)) (hnext p))
      exact hstep

/-- What `tb_malloc` does with enough fuel it does with any more. -/
theorem tbMalloc_stableAt (fuel nbytes : Nat) :
    StableAt .fuel (fun k => tbMalloc base kernel k nbytes) fuel :=
  .bind (.const _) fun _ => .bind (.const _) fun _ => search_stableAt _ fuel _ _

end Stability

end Heap

end ParchTestbench
