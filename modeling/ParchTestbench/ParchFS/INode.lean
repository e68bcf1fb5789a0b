import ParchTestbench.ParchFS.Allocator

/-!
# ParchFS: inodes

The methods of `INode`: the three-level block map, writing and reading a byte
range, and the entry slots of a directory.
-/

namespace ParchTestbench

open ParchFS Program

namespace INode

/-! ## The block map -/

/-- `*p = fs->alloc_blk();` -/
def allocInto (p : Nat) : ParchM Unit := do
  store p 4 (← allocBlk)

/-- `if (*p == BAD_BLOCK) { *p = fs->alloc_blk(); }` -/
def allocIfBad (p : Nat) : ParchM Unit := do
  let blk ← load p 4
  onlyIf (blk = badBlock) (allocInto p)

/-- `i2_cap`: the offset in the double-indirect range of entry `j` of index block `i`. -/
def i2Cap (i j : Nat) : Nat := blkSize * blknoPerBlk * i + blkSize * j

/-- The loop over the entries of one second-level index block, with `fuel`
entries left.  The result is `alloc_done`. -/
def fillIndirect2Block (off i : Nat) (indirect2Blks : Nat) : Nat → ParchM Bool
  | 0 => pure false
  | fuel + 1 => do
      let j := blknoPerBlk - (fuel + 1)
      let blk ← load (indirect2Blks + 4 * j) 4
      if blk = badBlock then do
        allocInto (indirect2Blks + 4 * j)
        if i2Cap i j > off then
          pure true
        else
          fillIndirect2Block off i indirect2Blks fuel
      else
        fillIndirect2Block off i indirect2Blks fuel

/-- The loop over the first-level entries.  It has no bound but the range of the
`int` index: `fuel + i` stays `2 ^ 31`. -/
def fillIndirect2 (off : Nat) (indirectBlks : Nat) : Nat → Nat → ParchM Unit
  | 0, _ => abort .undefined
  | fuel + 1, i => do
      allocIfBad (indirectBlks + 4 * i)
      let indirect2Blks ← getBlk (← load (indirectBlks + 4 * i) 4)
      let allocDone ← fillIndirect2Block off i indirect2Blks blknoPerBlk
      onlyIf (allocDone = false) (fillIndirect2 off indirectBlks fuel (i + 1))

/-- The part of `get_blkno` under `indirect 2`; `off` is what is left of the offset. -/
def getBlknoIndirect2 (this : Nat) (off : Nat) (create : Bool) : ParchM Nat := do
  onlyIf (create = true) do
    allocIfBad (indirectBlk2 this)
    let indirectBlks ← getBlk (← load (indirectBlk2 this) 4)
    fillIndirect2 off indirectBlks (2 ^ 31) 0
  if off < blkSize * blknoPerBlk * blknoPerBlk then do
    let pageOffset := off / blkSize
    let indirectBlks ← getBlk (← load (indirectBlk2 this) 4)
    let indirectNo ← load (indirectBlks + 4 * (pageOffset / blknoPerBlk)) 4
    let indirect2Blks ← getBlk indirectNo
    load (indirect2Blks + 4 * (pageOffset % blknoPerBlk)) 4
  else
    ParchFS.panic "File size too large."

/-- The part of `get_blkno` under `indirect 1`. -/
def getBlknoIndirect (this : Nat) (off : Nat) (create : Bool) : ParchM Nat := do
  onlyIf (create = true) do
    allocIfBad (indirectBlk this)
    let blks ← getBlk (← load (indirectBlk this) 4)
    forUpTo (min blknoPerBlk (off / blkSize + 1)) fun i => allocIfBad (blks + 4 * i)
  if off < blkSize * blknoPerBlk then do
    let blks ← getBlk (← load (indirectBlk this) 4)
    load (blks + 4 * (off / blkSize)) 4
  else
    getBlknoIndirect2 this (off - blkSize * blknoPerBlk) create

/-- `INode::get_blkno`. -/
def getBlkno (this : Nat) (off : Nat) (create : Bool) : ParchM Nat := do
  let size ← load (fSize this) 8
  onlyIf (create = true ∧ size < off) (store (fSize this) 8 off)
  let size ← load (fSize this) 8
  assert (off ≤ size) "off <= this->f_size"
  onlyIf (create = true) do
    forUpTo (min directBlkCount (off / blkSize + 1)) fun i => allocIfBad (directBlkNo this i)
  if off < blkSize * directBlkCount then
    load (directBlkNo this (off / blkSize)) 4
  else
    getBlknoIndirect this (off - blkSize * directBlkCount) create

/-! ## Byte ranges -/

/-- `copy_len`: what fits in the block that holds offset `off`. -/
def copyLen (off len : Nat) : Nat :=
  if blkSize - off % blkSize < len then blkSize - off % blkSize else len

theorem copyLen_pos (off : Nat) {len : Nat} (h : 0 < len) : 0 < copyLen off len := by
  have := Nat.mod_lt off (show 0 < blkSize by decide)
  unfold copyLen
  split <;> omega

/-- The copy loop of `INode::write`. -/
def writeLoop (this : Nat) (off : Nat) (buf : List UInt8) : ParchM Unit :=
  if h : buf.length = 0 then
    pure ()
  else do
    let blkNo ← getBlkno this off true
    onlyIf (blkNo = 0) (ParchFS.panic "bad blk no")
    let blk ← getBlk blkNo
    let n := copyLen off buf.length
    memcpy (blk + off % blkSize) (buf.take n)
    writeLoop this ((off + n) % 2 ^ 64) (buf.drop n)
termination_by buf.length
decreasing_by
  have := copyLen_pos off (Nat.pos_of_ne_zero h)
  simp only [List.length_drop]
  omega

/-- `INode::write` of the bytes `buf` at offset `off`. -/
def write (this : Nat) (off : Nat) (buf : List UInt8) : ParchM Unit := do
  let size ← load (fSize this) 8
  onlyIf (size ≤ (off + buf.length) % 2 ^ 64) do
    let _ ← getBlkno this ((off + buf.length) % 2 ^ 64) true
  writeLoop this off buf

/-- The copy loop of `INode::read`; the result is what it puts into the buffer. -/
def readLoop (this : Nat) (off len : Nat) : ParchM (List UInt8) :=
  if h : len = 0 then
    pure []
  else do
    let blkNo ← getBlkno this off false
    onlyIf (blkNo = 0) (ParchFS.panic "bad blk no")
    let blk ← getBlk blkNo
    let n := copyLen off len
    let bytes ← loadBytes (blk + off % blkSize) n
    let rest ← readLoop this ((off + n) % 2 ^ 64) (len - n)
    pure (bytes ++ rest)
termination_by len
decreasing_by
  have := copyLen_pos off (Nat.pos_of_ne_zero h)
  omega

/-- `INode::read` of `len` bytes at offset `off`. -/
def read (this : Nat) (off len : Nat) : ParchM (List UInt8) := do
  let size ← load (fSize this) 8
  assert ((off + len) % 2 ^ 64 < size) "off + len < this->f_size"
  readLoop this off len

/-! ## Directory entries -/

/-- `INode::get_dentry`; the position is a `uint32_t`. -/
def getDentry (this : Nat) (pos : Nat) : ParchM Nat := do
  let t ← load (fType this) 2
  onlyIf (t ≠ FType.DIR.code) (ParchFS.panic "get_dentry called for non-dir inode")
  let blk ← getBlkno this (dentrySize * ((pos + 1) % 2 ^ 32)) true
  onlyIf (blk = badBlock) (ParchFS.panic "Bad Block")
  let blkNo ← getBlkno this (dentrySize * pos) false
  onlyIf (blkNo = badBlock) (ParchFS.panic "bad block")
  let blkAddr ← getBlk blkNo
  pure (blkAddr + dentrySize * (pos % dentryPerBlk))

/-- The loop of `INode::add_dentry` from position `i` on.  The index is an `int`:
`fuel + i` stays `2 ^ 31`. -/
def addDentryFrom (this : Nat) (d : DEntry) : Nat → Nat → ParchM Unit
  | 0, _ => abort .undefined
  | fuel + 1, i => do
      let size ← load (fSize this) 8
      onlyIf (i ≤ size / dentrySize) do
        let de ← getDentry this i
        let inode ← load de 4
        if inode = badInode then do
          memset de 0 dentrySize
          memcpy de d.bytes
        else
          addDentryFrom this d fuel (i + 1)

/-- `INode::add_dentry`. -/
def addDentry (this : Nat) (d : DEntry) : ParchM Unit := do
  let t ← load (fType this) 2
  onlyIf (t ≠ FType.DIR.code) (ParchFS.panic "add_dentry called for non-dir inode")
  addDentryFrom this d (2 ^ 31) 0

end INode

end ParchTestbench
