import ParchTestbench.Machine.ByteMemory
import ParchTestbench.Machine.Program

/-!
# ParchFS: records, addresses and the mapped image

ParchFS builds a file system inside a memory image that is mapped as one flat
byte array.  This file fixes the sizes and enumerations of the header, the byte
offsets of every record field, the reasons for which the program stops, and the
accesses to the mapping.  Inode numbers, block numbers and addresses are natural
numbers; an address is an offset into the mapping, unless it is called physical.

The addresses of the five metadata structures are those that the constructor
asserts; `checkLayout` in `Volume` models that computation.
-/

namespace ParchTestbench

/-! ## Constants of the header -/

/-- `BASE_ADDRESS`, where the image is loaded. -/
def baseAddress : Nat := 0x80000000

/-- `PHYS_END_ADDRESS`. -/
def physEndAddress : Nat := 0x100000000

/-- `BAD_INODE`. -/
def badInode : Nat := 0

/-- `BAD_BLOCK`. -/
def badBlock : Nat := 0

/-- `ROOT_INODE`. -/
def rootInode : Nat := 1

/-- `BLK_SIZE`. -/
def blkSize : Nat := 4096

/-- `DIRECT_BLK_COUNT`. -/
def directBlkCount : Nat := 16

/-- `BLKNO_PER_BLK`, the entries of an index block. -/
def blknoPerBlk : Nat := 1024

/-- `DENTRY_NAME_LEN`. -/
def dentryNameLen : Nat := 118

/-- `sizeof(DEntry)`. -/
def dentrySize : Nat := 128

/-- `DENTRY_PER_BLK`. -/
def dentryPerBlk : Nat := 32

/-- `sizeof(INode)`. -/
def inodeSize : Nat := 256

/-- `Perm(0755)`, the only permissions the program stores. -/
def perm0755 : Nat := 0o755

/-- `FType`: the kind of an inode or of a directory entry. -/
inductive FType
  | SOCKET
  | LINK
  | REGULAR
  | BLOCK
  | DIR
  | CHAR
  | FIFO
deriving DecidableEq, Repr

/-- The enumerator's value, as stored in a 16-bit field. -/
def FType.code : FType → Nat
  | SOCKET => 0o1
  | LINK => 0o2
  | REGULAR => 0o4
  | BLOCK => 0o10
  | DIR => 0o20
  | CHAR => 0o40
  | FIFO => 0o100

/-! ## Addresses of the metadata structures -/

def superblock : Nat := 0x7FFFF000
def fsBlockBitmap : Nat := 0x7FFEF000
def mmBlockBitmap : Nat := 0x7FFDF000
def inodeBitmap : Nat := 0x7FFDE000
def inodeList : Nat := 0x7FDDE000

namespace SuperBlock

def magic : Nat := superblock
def xregs (k : Nat) : Nat := superblock + 8 + 8 * k
def baseKernelSatp : Nat := superblock + 256
def inodeCount : Nat := superblock + 264
def blockCount : Nat := superblock + 272
def freeInode : Nat := superblock + 280
def freeBlock : Nat := superblock + 288
def lastAccess : Nat := superblock + 296
def rootInode : Nat := superblock + 304
def reserved : Nat := superblock + 308

end SuperBlock

namespace INode

/-- `&inode_list->nodes[no]`.  An inode pointer is given by its number. -/
def addr (no : Nat) : Nat := inodeList + inodeSize * no

def permission (this : Nat) : Nat := addr this
def fType (this : Nat) : Nat := addr this + 2
def uid (this : Nat) : Nat := addr this + 4
def gid (this : Nat) : Nat := addr this + 8
def flags (this : Nat) : Nat := addr this + 12
def hardLinkCount (this : Nat) : Nat := addr this + 16
def directBlkNo (this : Nat) (k : Nat) : Nat := addr this + 20 + 4 * k
def indirectBlk (this : Nat) : Nat := addr this + 84
def indirectBlk2 (this : Nat) : Nat := addr this + 88
def fSize (this : Nat) : Nat := addr this + 96
def accessTime (this : Nat) : Nat := addr this + 104
def changeTime (this : Nat) : Nat := addr this + 112
def createTime (this : Nat) : Nat := addr this + 120

end INode

/-! ### Addresses as numerals -/

section Numerals

variable (no k : Nat)

theorem SuperBlock.magic_eq : SuperBlock.magic = 0x7FFFF000 := rfl
theorem SuperBlock.xregs_eq : SuperBlock.xregs k = 0x7FFFF008 + 8 * k := rfl
theorem SuperBlock.baseKernelSatp_eq : SuperBlock.baseKernelSatp = 0x7FFFF100 := rfl
theorem SuperBlock.inodeCount_eq : SuperBlock.inodeCount = 0x7FFFF108 := rfl
theorem SuperBlock.blockCount_eq : SuperBlock.blockCount = 0x7FFFF110 := rfl
theorem SuperBlock.lastAccess_eq : SuperBlock.lastAccess = 0x7FFFF128 := rfl
theorem SuperBlock.rootInode_eq : SuperBlock.rootInode = 0x7FFFF130 := rfl
theorem SuperBlock.reserved_eq : SuperBlock.reserved = 0x7FFFF134 := rfl
theorem SuperBlock.freeInode_eq : SuperBlock.freeInode = 0x7FFFF118 := rfl
theorem SuperBlock.freeBlock_eq : SuperBlock.freeBlock = 0x7FFFF120 := rfl
theorem INode.addr_eq : INode.addr no = 0x7FDDE000 + 256 * no := rfl
theorem INode.permission_eq : INode.permission no = 0x7FDDE000 + 256 * no := rfl
theorem INode.fType_eq : INode.fType no = 0x7FDDE000 + 256 * no + 2 := rfl
theorem INode.uid_eq : INode.uid no = 0x7FDDE000 + 256 * no + 4 := rfl
theorem INode.gid_eq : INode.gid no = 0x7FDDE000 + 256 * no + 8 := rfl
theorem INode.flags_eq : INode.flags no = 0x7FDDE000 + 256 * no + 12 := rfl
theorem INode.hardLinkCount_eq : INode.hardLinkCount no = 0x7FDDE000 + 256 * no + 16 := rfl
theorem INode.directBlkNo_eq :
    INode.directBlkNo no k = 0x7FDDE000 + 256 * no + 20 + 4 * k := rfl
theorem INode.indirectBlk2_eq : INode.indirectBlk2 no = 0x7FDDE000 + 256 * no + 88 := rfl
theorem INode.fSize_eq : INode.fSize no = 0x7FDDE000 + 256 * no + 96 := rfl
theorem INode.accessTime_eq : INode.accessTime no = 0x7FDDE000 + 256 * no + 104 := rfl
theorem INode.changeTime_eq : INode.changeTime no = 0x7FDDE000 + 256 * no + 112 := rfl
theorem INode.createTime_eq : INode.createTime no = 0x7FDDE000 + 256 * no + 120 := rfl

end Numerals

attribute [irreducible] superblock fsBlockBitmap mmBlockBitmap inodeBitmap inodeList INode.addr

/-- `DEntry`: one directory entry. -/
structure DEntry where
  inode : Nat
  permission : Nat
  fType : FType
  nameLen : Nat
  fName : Fin 118 → UInt8

/-- The 128 bytes of a directory entry as they lie in memory. -/
def DEntry.bytes (d : DEntry) : List UInt8 :=
  Mem.leBytes 4 d.inode ++ (Mem.leBytes 2 d.permission ++ (Mem.leBytes 2 d.fType.code ++
    (Mem.leBytes 2 d.nameLen ++ List.ofFn d.fName)))

@[simp]
theorem DEntry.length_bytes (d : DEntry) : d.bytes.length = 128 := by
  simp only [DEntry.bytes, List.length_append, Mem.length_leBytes, List.length_ofFn]

/-! ## The mapped image and the program state -/

/-- `MMAPBinContent`: the length of the image file and the bytes of its mapping. -/
structure MMAPBinContent where
  size : Nat
  mem : Mem

/-- The mapping covers whole pages. -/
def MMAPBinContent.mapped (bin : MMAPBinContent) : Nat :=
  4096 * ((bin.size + 4095) / 4096)

/-- `ParchFS`: the mapping and the four addresses read from the symbol file. -/
structure ParchFS where
  mmapBin : MMAPBinContent
  sKernel : Nat
  eKernel : Nat
  sReserve : Nat
  eReserve : Nat

/-- Why the program stops before its end.

`fault` is an access outside the mapping; `undefined` is a signed overflow or a
bitmap position that is negative as an `int`. -/
inductive Abort
  | panic (message : String)
  | assertion (expression : String)
  | fault
  | undefined
deriving DecidableEq, Repr

/-- The panic of a full block bitmap. -/
def blockBitmapFull : Abort := .panic "fs block bitmap full"

/-- The panic of a full inode bitmap. -/
def inodeBitmapFull : Abort := .panic "inode bitmap full"

/-- A program over the file system under construction. -/
abbrev ParchM (α : Type) := Program ParchFS Abort α

namespace ParchFS

/-- The bytes of the mapping. -/
def mem (s : ParchFS) : Mem := s.mmapBin.mem

/-- The length of the mapping. -/
def mapped (s : ParchFS) : Nat := s.mmapBin.mapped

/-- The same file system with other bytes in the mapping. -/
def withMem (s : ParchFS) (m : Mem) : ParchFS :=
  { s with mmapBin := { s.mmapBin with mem := m } }

section WithMem

variable (s : ParchFS) (m m' : Mem)

@[simp] theorem mem_withMem : (s.withMem m).mem = m := rfl
@[simp] theorem mapped_withMem : (s.withMem m).mapped = s.mapped := rfl
@[simp] theorem withMem_withMem : (s.withMem m).withMem m' = s.withMem m' := rfl
@[simp] theorem withMem_mem : s.withMem s.mem = s := rfl

end WithMem

/-! ## Accesses to the mapping -/

/-- Read the `n`-byte integer at address `a`. -/
def load (a n : Nat) : ParchM Nat := fun s =>
  if a + n ≤ s.mapped then .ok (s.mem.load a n, s) else .error .fault

/-- Write the `n`-byte integer `v` at address `a`. -/
def store (a n v : Nat) : ParchM Unit := fun s =>
  if a + n ≤ s.mapped then .ok ((), s.withMem (s.mem.store a n v)) else .error .fault

/-- `memset(a, b, n)`. -/
def memset (a : Nat) (b : UInt8) (n : Nat) : ParchM Unit := fun s =>
  if a + n ≤ s.mapped then .ok ((), s.withMem (s.mem.fill a n b)) else .error .fault

/-- `memcpy(a, bs, bs.length)`. -/
def memcpy (a : Nat) (bs : List UInt8) : ParchM Unit := fun s =>
  if a + bs.length ≤ s.mapped then .ok ((), s.withMem (s.mem.copy a bs)) else .error .fault

/-- `memcpy(buf, a, n)` into a buffer outside the mapping. -/
def loadBytes (a n : Nat) : ParchM (List UInt8) := fun s =>
  if a + n ≤ s.mapped then .ok ((List.range n).map fun k => s.mem (a + k), s) else .error .fault

/-- `panic(message)`. -/
def panic {α : Type} (message : String) : ParchM α := Program.abort (.panic message)

/-- `assert(c)`; the build defines no `NDEBUG`. -/
def assert (c : Prop) [Decidable c] (expression : String) : ParchM Unit :=
  Program.onlyIf (¬ c) (Program.abort (.assertion expression))

variable {s : ParchFS} {a n v : Nat}

theorem load_eq (h : a + n ≤ s.mapped) : load a n s = .ok (s.mem.load a n, s) := if_pos h

theorem store_eq (h : a + n ≤ s.mapped) :
    store a n v s = .ok ((), s.withMem (s.mem.store a n v)) := if_pos h

theorem memset_eq {b : UInt8} (h : a + n ≤ s.mapped) :
    memset a b n s = .ok ((), s.withMem (s.mem.fill a n b)) := if_pos h

theorem memcpy_eq {bs : List UInt8} (h : a + bs.length ≤ s.mapped) :
    memcpy a bs s = .ok ((), s.withMem (s.mem.copy a bs)) := if_pos h

theorem loadBytes_eq (h : a + n ≤ s.mapped) :
    loadBytes a n s = .ok ((List.range n).map fun k => s.mem (a + k), s) := if_pos h

theorem assert_eq {c : Prop} [Decidable c] {expression : String} (h : c) :
    assert c expression s = .ok ((), s) := by
  simp only [assert, Program.onlyIf, not_not.mpr h, if_false]
  rfl

theorem assert_eq_error {c : Prop} [Decidable c] {expression : String} (h : ¬ c) :
    assert c expression s = .error (.assertion expression) := by
  simp only [assert, Program.onlyIf, if_pos h]
  rfl

theorem eq_of_assert {c : Prop} [Decidable c] {expression : String} {t : ParchFS}
    (hrun : assert c expression s = .ok ((), t)) : t = s := by
  by_cases hc : c
  · rw [assert_eq hc] at hrun
    cases hrun
    rfl
  · rw [assert_eq_error hc] at hrun
    cases hrun

/-- Sequencing after an assertion. -/
theorem assert_outcome {α : Type} {c : Prop} [Decidable c] {expression : String}
    {f : Unit → ParchM α} {Q : α → ParchFS → Prop} {E : Abort → Prop}
    (hyes : c → Program.Outcome (f ()) s Q E) (hno : ¬ c → E (.assertion expression)) :
    Program.Outcome (assert c expression >>= f) s Q E := by
  by_cases h : c
  · exact Program.Outcome.bind_ok (assert_eq h) (hyes h)
  · exact Program.Outcome.of_eq_error (Program.bind_eq_error (assert_eq_error h)) (hno h)

end ParchFS

end ParchTestbench
