import ParchTestbench.ParchFS.INode

/-!
# ParchFS: building a volume

The constructor of `ParchFS`, the creation of directories and files, the
recursive copy of a host tree, and runs of the public operations on a volume.

The values a run takes from outside the program are explicit: the readings of
the clock, and the unspecified contents of local variables.
-/

namespace ParchTestbench

open ParchFS Program

/-- What the program reads without having written it.

`time no k` is reading `k` of `std::time` in the call that creates inode `no`,
`uninit no` the contents of its local `DEntry` before any assignment, and
`uninitTemp symbol` the contents of the local `temp` on the line of a symbol.  As long as the
inode table lasts no number is handed out twice, so that `no` stands for the call. -/
structure Env where
  startTime : Nat
  time : Nat → Nat → Nat
  uninit : Nat → Fin 118 → UInt8
  uninitTemp : List Char → Nat

/-! ## The symbol file -/

/-- The four addresses of interest; `nullptr` until their line is read. -/
structure Symbols where
  sKernel : Nat := 0
  eKernel : Nat := 0
  sReserve : Nat := 0
  eReserve : Nat := 0
deriving DecidableEq, Repr

/-- The value of a hexadecimal digit. -/
def hexDigit (c : Char) : Option Nat :=
  if '0' ≤ c ∧ c ≤ '9' then some (c.toNat - '0'.toNat)
  else if 'a' ≤ c ∧ c ≤ 'f' then some (c.toNat - 'a'.toNat + 10)
  else if 'A' ≤ c ∧ c ≤ 'F' then some (c.toNat - 'A'.toNat + 10)
  else none

/-- The value of the longest prefix of hexadecimal digits, after `acc`. -/
def hexPrefix : List Char → Nat → Nat
  | [], acc => acc
  | c :: cs, acc =>
      match hexDigit c with
      | some d => hexPrefix cs (16 * acc + d)
      | none => acc

/-- Drop an optional `0x` or `0X`. -/
def dropHexMark : List Char → List Char
  | '0' :: 'x' :: cs => cs
  | '0' :: 'X' :: cs => cs
  | cs => cs

/-- The value of a parsed number as a `size_t`: the largest one when it does not
fit, and negated modulo `2 ^ 64` after a minus sign. -/
def fitSize (negative : Bool) (v : Nat) : Nat :=
  if 2 ^ 64 ≤ v then 2 ^ 64 - 1 else if negative then (2 ^ 64 - v) % 2 ^ 64 else v

/-- `isspace` in the classic locale: the blank, and the characters from tab to carriage return. -/
def isSpace (c : Char) : Bool := c = ' ' ∨ '\t' ≤ c ∧ c ≤ '\r'

/-- `ss >> temp` in hexadecimal for a `size_t`: leading white space is skipped, a
sign is accepted, and an exhausted stream leaves the variable as it was. -/
def extractHex (cs : List Char) (old : Nat) : Nat :=
  match cs.dropWhile isSpace with
  | [] => old
  | '-' :: rest => fitSize true (hexPrefix (dropHexMark rest) 0)
  | '+' :: rest => fitSize false (hexPrefix (dropHexMark rest) 0)
  | rest => fitSize false (hexPrefix (dropHexMark rest) 0)

/-- One line of the symbol file: an address, one blank and a symbol. -/
def Symbols.readLine (env : Env) (syms : Symbols) (line : List Char) : Except Abort Symbols :=
  if ' ' ∈ line then
    let addr := line.takeWhile (· ≠ ' ')
    let symbol := (line.dropWhile (· ≠ ' ')).drop 1
    let temp := extractHex addr (env.uninitTemp symbol)
    if symbol = "skernel".toList then .ok { syms with sKernel := temp }
    else if symbol = "ekernel".toList then .ok { syms with eKernel := temp }
    else if symbol = "sreserve".toList then .ok { syms with sReserve := temp }
    else if symbol = "ereserve".toList then .ok { syms with eReserve := temp }
    else .ok syms
  else
    .error (.panic ("malformed parch.sym, bad line\"" ++ String.ofList line ++ "\""))

/-- The loop over the lines of the symbol file. -/
def Symbols.read (env : Env) (lines : List (List Char)) : Except Abort Symbols :=
  lines.foldlM (Symbols.readLine env) {}

/-! ## Directories and files -/

namespace ParchFS

/-- The assignments to the fields of a new inode, in the order in which
`make_dir` and `make_file` both make them. -/
def initInode (env : Env) (this : Nat) (fType : FType) (fSize hardLinkCount : Nat) :
    ParchM Unit := do
  store (INode.permission this) 2 perm0755
  store (INode.fType this) 2 fType.code
  store (INode.uid this) 4 0
  store (INode.gid this) 4 0
  store (INode.fSize this) 8 fSize
  store (INode.accessTime this) 8 (env.time this 0)
  store (INode.changeTime this) 8 (env.time this 1)
  store (INode.createTime this) 8 (env.time this 2)
  store (INode.flags this) 4 0
  store (INode.hardLinkCount this) 4 hardLinkCount

/-- `memcpy(f_name, name, name_len)` over the previous contents. -/
def nameField (name : List UInt8) (old : Fin 118 → UInt8) : Fin 118 → UInt8 :=
  fun k => name[k.val]?.getD (old k)

/-- The entry `.` of a new directory. -/
def dotEntry (no : Nat) : DEntry where
  inode := no
  permission := perm0755
  fType := .DIR
  nameLen := 1
  fName := nameField ['.'.toUInt8] fun _ => 0

/-- The entry `..` of a new directory. -/
def dotDotEntry (parent : Nat) : DEntry where
  inode := parent
  permission := perm0755
  fType := .DIR
  nameLen := 2
  fName := nameField ['.'.toUInt8, '.'.toUInt8] fun _ => 0

/-- The entry that `make_dir` adds to the parent: the bytes after the name are
those the local variable happened to hold. -/
def dirEntry (env : Env) (no : Nat) (name : List UInt8) : DEntry where
  inode := no
  permission := perm0755
  fType := .DIR
  nameLen := name.length
  fName := nameField name (env.uninit no)

/-- The entry that `make_file` adds to the parent: its name field is cleared first. -/
def fileEntry (no : Nat) (name : List UInt8) : DEntry where
  inode := no
  permission := perm0755
  fType := .REGULAR
  nameLen := name.length
  fName := nameField name fun _ => 0

/-- `ParchFS::make_dir`. -/
def makeDir (env : Env) (parent : Nat) (name : List UInt8) : ParchM Nat := do
  assert (name.length ≤ dentryNameLen) "name_len <= DENTRY_NAME_LEN"
  assert (parent ≠ badInode) "parent != BAD_INODE"
  let dirInodeNo ← allocInode
  let dirInode ← getInode dirInodeNo
  initInode env dirInode .DIR (2 * dentrySize) 3
  INode.addDentry dirInode (dotEntry dirInodeNo)
  INode.addDentry dirInode (dotDotEntry parent)
  if dirInodeNo = rootInode then do
    onlyIf (parent ≠ rootInode) (panic "Root dir's parent must be itself!")
    pure dirInodeNo
  else do
    let parentInode ← getInode parent
    INode.addDentry parentInode (dirEntry env dirInodeNo name)
    pure dirInodeNo

/-- `ParchFS::make_file`. -/
def makeFile (env : Env) (parent : Nat) (name : List UInt8) : ParchM Nat := do
  assert (name.length ≤ dentryNameLen) "name_len <= DENTRY_NAME_LEN"
  let used ← INodeBitmap.get parent
  assert (used = true) "this->inode_bitmap->get(parent)"
  assert (parent ≠ badInode) "parent != BAD_INODE"
  let fileInodeNo ← allocInode
  let fileInode ← getInode fileInodeNo
  initInode env fileInode .REGULAR 0 1
  let parentInode ← getInode parent
  let t ← load (INode.fType parentInode) 2
  assert (t = FType.DIR.code) "parent_inode->f_type == FType::DIR"
  INode.addDentry parentInode (fileEntry fileInodeNo name)
  pure fileInodeNo

/-! ## The constructor -/

/-- `ParchFS::pa2blkno`: the difference is a `size_t`, the result a `uint32_t`. -/
def pa2blkno (s : ParchFS) (pa : Nat) : Nat :=
  (pa + 2 ^ 64 - s.sKernel) % 2 ^ 64 / blkSize % 2 ^ 32

/-- The first block of the second marking loop, `pa2blkno(s_reserve) - 1` as a
`uint32_t`. -/
def reserveStart (s : ParchFS) : Nat :=
  (pa2blkno s s.sReserve + (2 ^ 32 - 1)) % 2 ^ 32

/-- Mark one block as used in both block bitmaps. -/
def markUsed (blkNo : Nat) : ParchM Unit := do
  BlockBitmap.set fsBlockBitmap blkNo
  BlockBitmap.set mmBlockBitmap blkNo

/-- The checks of the symbols, and the assertions on the addresses of the
metadata structures that the constructor computes from them. -/
def checkLayout : ParchM Unit := do
  let s ← get
  onlyIf (s.sKernel = 0 ∨ s.eKernel = 0 ∨ s.sReserve = 0 ∨ s.eReserve = 0)
    (panic "Critical symbols not found.")
  onlyIf (s.sKernel ≠ baseAddress) (panic "Bad s_kernel")
  onlyIf (s.eReserve ≠ physEndAddress) (panic "Bad e_reserve")
  let top := s.eReserve - s.sKernel
  assert (top - 4096 + s.sKernel = 0xFFFFF000)
    "MMapAddr(superblock      ) - mmap_bin.mmap_ptr + uint64_t(s_kernel) == 0xFFFFF000"
  assert (top - 4096 - 65536 + s.sKernel = 0xFFFEF000)
    "MMapAddr(fs_block_bitmap ) - mmap_bin.mmap_ptr + uint64_t(s_kernel) == 0xFFFEF000"
  assert (top - 4096 - 65536 - 65536 + s.sKernel = 0xFFFDF000)
    "MMapAddr(mm_block_bitmap ) - mmap_bin.mmap_ptr + uint64_t(s_kernel) == 0xFFFDF000"
  assert (top - 4096 - 65536 - 65536 - 4096 + s.sKernel = 0xFFFDE000)
    "MMapAddr(inode_bitmap    ) - mmap_bin.mmap_ptr + uint64_t(s_kernel) == 0xFFFDE000"
  assert (top - 4096 - 65536 - 65536 - 4096 - 512 * blkSize + s.sKernel = 0xFFDDE000)
    "MMapAddr(inode_list      ) - mmap_bin.mmap_ptr + uint64_t(s_kernel) == 0xFFDDE000"

/-- The clearing of the metadata; `len` is the managed length, `now` the reading of
the clock. -/
def clearMetadata (len now : Nat) : ParchM Unit := do
  BlockBitmap.clearAll fsBlockBitmap
  BlockBitmap.clearAll mmBlockBitmap
  INodeBitmap.clearAll
  INodeList.clearAll
  SuperBlock.init len now
  BlockBitmap.set fsBlockBitmap badBlock
  BlockBitmap.set mmBlockBitmap badBlock
  INodeBitmap.set badInode

/-- The clearing of the metadata and the marking of the blocks in use. -/
def initMetadata (env : Env) : ParchM Unit := do
  let s ← get
  clearMetadata ((s.sReserve + 2 ^ 64 - s.eKernel) % 2 ^ 64) env.startTime
  -- a bound of `2 ^ 32 - 1` would make the first loop endless, but `set` leaves
  -- the bitmap long before
  forUpTo (pa2blkno s s.eKernel + 1 - pa2blkno s s.sKernel) fun k =>
    markUsed (pa2blkno s s.sKernel + k)
  forUpTo (pa2blkno s s.eReserve - reserveStart s) fun k => markUsed (reserveStart s + k)

/-- The constructor after the symbol file has been read. -/
def init (env : Env) : ParchM Unit := do
  checkLayout
  initMetadata env
  let root ← makeDir env rootInode []
  onlyIf (root ≠ rootInode) (panic "root dir inode num != 0!")

/-- The object before the body of the constructor: the image is mapped and the
symbols are as the file gives them. -/
def ofSymbols (bin : MMAPBinContent) (syms : Symbols) : ParchFS where
  mmapBin := bin
  sKernel := syms.sKernel
  eKernel := syms.eKernel
  sReserve := syms.sReserve
  eReserve := syms.eReserve

/-- `ParchFS::ParchFS` on an image and the lines of a symbol file. -/
def construct (env : Env) (bin : MMAPBinContent) (lines : List (List Char)) :
    Except Abort ParchFS := do
  let syms ← Symbols.read env lines
  let r ← init env (ofSymbols bin syms)
  pure r.2

end ParchFS

/-! ## The host tree -/

/-- The entries of a host directory in the order in which `directory_iterator`
yields them. -/
inductive HostDir
  | nil
  | dir (name : List UInt8) (entries rest : HostDir)
  | file (name contents : List UInt8) (rest : HostDir)
deriving DecidableEq

namespace ParchFS

/-- `ParchFS::make_fs`: copy the entries of a host directory into `parentInode`. -/
def makeFs (env : Env) : HostDir → Nat → ParchM Unit
  | .nil, _ => pure ()
  | .dir name entries rest, parentInode => do
      let subInode ← makeDir env parentInode name
      makeFs env entries subInode
      makeFs env rest parentInode
  | .file name contents rest, parentInode => do
      let fileNo ← makeFile env parentInode name
      let inode ← getInode fileNo
      INode.write inode 0 contents
      makeFs env rest parentInode

/-- The whole program up to `dump`: the constructor, then `make_fs` from the root. -/
def build (env : Env) (bin : MMAPBinContent) (lines : List (List Char)) (tree : HostDir) :
    Except Abort ParchFS := do
  let s ← construct env bin lines
  let r ← makeFs env tree rootInode s
  pure r.2

/-! ## Runs of the public operations -/

/-- One call on a volume; calls on an inode go through `get_inode`. -/
inductive Op
  | makeDir (env : Env) (parent : Nat) (name : List UInt8)
  | makeFile (env : Env) (parent : Nat) (name : List UInt8)
  | write (inode : Nat) (off : Nat) (buf : List UInt8)
  | getBlkno (inode : Nat) (off : Nat)
  | getDentry (inode : Nat) (pos : Nat)
  | addDentry (inode : Nat) (d : DEntry)

namespace Op

/-- Make the call and drop its result. -/
def exec : Op → ParchM Unit
  | makeDir env parent name => do
      let _ ← ParchFS.makeDir env parent name
  | makeFile env parent name => do
      let _ ← ParchFS.makeFile env parent name
  | write inode off buf => do
      INode.write (← getInode inode) off buf
  | getBlkno inode off => do
      let _ ← INode.getBlkno (← getInode inode) off true
  | getDentry inode pos => do
      let _ ← INode.getDentry (← getInode inode) pos
  | addDentry inode d => do
      INode.addDentry (← getInode inode) d

/-- Does the call create an inode? -/
def creates : Op → Bool
  | makeDir .. => true
  | makeFile .. => true
  | _ => false

/-- The arguments are values of their types: inode numbers of the table, offsets
and lengths of a `size_t`, positions of a `uint32_t`. -/
def WellTyped : Op → Prop
  | makeDir _ parent _ => parent < 8192
  | makeFile _ parent _ => parent < 8192
  | write inode off buf => inode < 8192 ∧ off < 2 ^ 64 ∧ buf.length < 2 ^ 64
  | getBlkno inode off => inode < 8192 ∧ off < 2 ^ 64
  | getDentry inode pos => inode < 8192 ∧ pos < 2 ^ 32
  | addDentry inode _ => inode < 8192

end Op

/-- The number of inodes that a list of calls creates. -/
def creations (ops : List Op) : Nat := ops.countP Op.creates

/-- The constructor followed by a list of calls. -/
def run (env : Env) (bin : MMAPBinContent) (lines : List (List Char)) (ops : List Op) :
    Except Abort ParchFS := do
  let s ← construct env bin lines
  let r ← runAll Op.exec ops s
  pure r.2

end ParchFS

end ParchTestbench
