import ParchTestbench.ParchFS.Layout

/-!
# ParchFS: bitmaps and allocation

The two block bitmaps, the inode bitmap, the super block and the functions that
hand out blocks and inodes.  The bitmap classes have the same methods over
arrays of different length, so both are instances of one definition.
-/

namespace ParchTestbench

open ParchFS Program

/-! ## Bits of a byte -/

/-- `set_bit`: the byte is truncated to 8 bits when it is stored. -/
def setBit (bits pos : Nat) : Nat := bits ||| 1 <<< pos

/-- `clear_bit`. -/
def clearBit (bits pos : Nat) : Nat := bits - (bits &&& 1 <<< pos)

/-- `set_bit_val`. -/
def setBitVal (bits : Nat) (val : Bool) (pos : Nat) : Nat :=
  if val then setBit bits pos else clearBit bits pos

/-- `get_bit`. -/
def getBit (bits pos : Nat) : Bool := decide (bits &&& 1 <<< pos ≠ 0)

/-! ## Bitmaps -/

namespace Bitmap

/-- Rewrite the byte that holds position `pos` of the bit array whose bytes start
at `base`.  A position is an `int`: from `2 ^ 31` on it would be negative. -/
def update (base pos : Nat) (f : Nat → Nat → Nat) : ParchM Unit := do
  onlyIf (2 ^ 31 ≤ pos) (abort .undefined)
  let bits ← load (base + pos / 8) 1
  store (base + pos / 8) 1 (f bits (pos % 8))

def set (base pos : Nat) : ParchM Unit := update base pos setBit

/-- The source's `clear` calls `set_bit`. -/
def clear (base pos : Nat) : ParchM Unit := update base pos setBit

def setVal (base pos : Nat) (val : Bool) : ParchM Unit :=
  update base pos fun bits bitPos => setBitVal bits val bitPos

def get (base pos : Nat) : ParchM Bool := do
  onlyIf (2 ^ 31 ≤ pos) (abort .undefined)
  let bits ← load (base + pos / 8) 1
  pure (getBit bits (pos % 8))

/-- The search loop, with `fuel` positions left from `pos` on. -/
def firstAvailableFrom (base : Nat) (full : String) : Nat → Nat → ParchM Nat
  | 0, _ => ParchFS.panic full
  | fuel + 1, pos => do
      if ← get base pos then
        firstAvailableFrom base full fuel (pos + 1)
      else
        pure pos

end Bitmap

namespace INodeBitmap

def set (pos : Nat) : ParchM Unit := Bitmap.set inodeBitmap pos
def clear (pos : Nat) : ParchM Unit := Bitmap.clear inodeBitmap pos
def setVal (pos : Nat) (val : Bool) : ParchM Unit := Bitmap.setVal inodeBitmap pos val
def get (pos : Nat) : ParchM Bool := Bitmap.get inodeBitmap pos
def clearAll : ParchM Unit := memset inodeBitmap 0 4096

def firstAvailable : ParchM Nat :=
  Bitmap.firstAvailableFrom inodeBitmap "inode bitmap full" (4096 * 8) 0

end INodeBitmap

namespace BlockBitmap

/-- `BlockBitmap::set`; `this` is the address of one of the two block bitmaps. -/
def set (this : Nat) (pos : Nat) : ParchM Unit := Bitmap.set this pos
def clear (this : Nat) (pos : Nat) : ParchM Unit := Bitmap.clear this pos
def setVal (this : Nat) (pos : Nat) (val : Bool) : ParchM Unit := Bitmap.setVal this pos val
def get (this : Nat) (pos : Nat) : ParchM Bool := Bitmap.get this pos
def clearAll (this : Nat) : ParchM Unit := memset this 0 (16 * 4096)

def firstAvailable (this : Nat) : ParchM Nat :=
  Bitmap.firstAvailableFrom this "fs block bitmap full" (16 * 4096 * 8) 0

end BlockBitmap

def INodeList.clearAll : ParchM Unit := memset inodeList 0 (512 * blkSize)

/-- `SuperBlock::init`; `now` is the reading of `std::time`. -/
def SuperBlock.init (managedLength now : Nat) : ParchM Unit := do
  store SuperBlock.magic 8 0xBEEFBEEFBEEFBEEF
  forUpTo 31 fun k => store (SuperBlock.xregs k) 8 0
  store SuperBlock.baseKernelSatp 8 0
  store SuperBlock.inodeCount 8 8192
  store SuperBlock.blockCount 8 (managedLength / blkSize)
  store SuperBlock.freeInode 8 (← load SuperBlock.inodeCount 8)
  store SuperBlock.freeBlock 8 (← load SuperBlock.blockCount 8)
  store SuperBlock.lastAccess 8 now
  store SuperBlock.rootInode 4 ParchTestbench.rootInode
  memset SuperBlock.reserved 0 3788

/-! ## Blocks and inodes -/

namespace ParchFS

/-- `x--` on the 64-bit counter at address `a`. -/
def decrement (a : Nat) : ParchM Unit := do
  let x ← load a 8
  store a 8 (x + (2 ^ 64 - 1))

/-- `ParchFS::get_blk`. -/
def getBlk (blk : Nat) : ParchM Nat := do
  let fs ← BlockBitmap.get fsBlockBitmap blk
  assert (fs = true) "this->fs_block_bitmap->get(blk)"
  let mm ← BlockBitmap.get mmBlockBitmap blk
  assert (mm = true) "this->mm_block_bitmap->get(blk)"
  pure (blkSize * blk)

/-- `ParchFS::alloc_blk`. -/
def allocBlk : ParchM Nat := do
  let res ← BlockBitmap.firstAvailable fsBlockBitmap
  BlockBitmap.set fsBlockBitmap res
  BlockBitmap.set mmBlockBitmap res
  decrement SuperBlock.freeBlock
  let blk ← getBlk res
  memset blk 0 blkSize
  pure res

/-- `ParchFS::get_inode`; the result stands for `&inode_list->nodes[inode]`. -/
def getInode (inode : Nat) : ParchM Nat := do
  let used ← INodeBitmap.get inode
  assert (used = true) "this->inode_bitmap->get(inode)"
  pure inode

/-- `ParchFS::alloc_inode`; the second `get_inode` is the one in the log line. -/
def allocInode : ParchM Nat := do
  let res ← INodeBitmap.firstAvailable
  decrement SuperBlock.freeInode
  INodeBitmap.set res
  let inode ← getInode res
  memset (INode.addr inode) 0 inodeSize
  let _ ← getInode res
  pure res

end ParchFS

end ParchTestbench
