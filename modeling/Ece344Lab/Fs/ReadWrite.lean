import Ece344Lab.Fs.Inode

/-!
# Reading, writing and freeing the blocks of an inode

`read_write.c`, and `testfs_remove_inode` of `inode.c`, which needs it. Functions
that only read are functions of the inode and the device. Each loop is a
recursion on the number of rounds it has left.
-/
namespace Ece344Lab.Fs

open Ece344Lab.Library

/-- The largest file: ten direct blocks, 2048 through the single indirect block and
2048 * 2048 through the double indirect block. The source writes the number out. -/
abbrev maxFileSize : Nat := 34376597504

/-- Conversion to the unsigned 64-bit type `size_t`. -/
def toSizeT (x : Int) : Nat := (x % 2 ^ 64).toNat

/-- Conversion to the signed 64-bit type `off_t`. -/
def toOffT (n : Nat) : Int := Int.bmod n (2 ^ 64)

/-- Addition in `off_t`, where overflow is undefined. -/
def addOff (a b : Int) : Except Halt Int :=
  if -2 ^ 63 ≤ a + b ∧ a + b < 2 ^ 63 then .ok (a + b) else .error .undefined

/-- The position `(BLOCK_SIZE * i) - block_ix` in the caller's buffer. The product is an
`int` product. -/
def bufIndex (i : Nat) (blockIx : Int) : Except Halt Int :=
  if blockSize * i ≤ intMax then .ok (blockSize * i - blockIx) else .error .undefined

/-- `memcpy(buf + pos, block + ix, n)` -/
def copyOut (buf : Nat → UInt8) (pos : Int) (block : Block) (ix n : Int) :
    Except Halt (Nat → UInt8) :=
  if 0 ≤ pos ∧ 0 ≤ ix ∧ 0 ≤ n ∧ ix + n ≤ blockSize then
    .ok fun k => if pos ≤ k ∧ k < pos + n then block.get (k - pos + ix).toNat else buf k
  else .error .undefined

/-- `memcpy(block + ix, buf + pos, n)` -/
def copyBlock (block : Block) (ix : Int) (buf : Nat → UInt8) (pos n : Int) : Except Halt Block :=
  if 0 ≤ pos ∧ 0 ≤ ix ∧ 0 ≤ n ∧ ix + n ≤ blockSize then
    .ok (block.copyIn ix.toNat (fun k => buf (pos.toNat + k)) n.toNat)
  else .error .undefined

/-- The end of `testfs_read_block`: the block `phyBlockNr`, or zeros for a block that is
not allocated, which is how sparse files are supported. -/
def readPhyBlock (dev : Dev) (phyBlockNr : Int) : Except Halt (Int × Block) := do
  if phyBlockNr > 0 then
    let block ← dev.read phyBlockNr
    return (phyBlockNr, block)
  return (phyBlockNr, Block.zero)

/-- Given a logical block number, read the corresponding physical block. The result is the
physical block number, 0 if it does not exist, and what the buffer `block` holds. Beyond
the maximum file size the buffer is not written, and no caller looks at it. -/
def testfsReadBlock (d : Dinode) (dev : Dev) (logBlockNr : Int) : Except Halt (Int × Block) := do
  assertC .readBlockNrNonneg (0 ≤ logBlockNr)
  let logBlockNr := logBlockNr.toNat
  if logBlockNr < nrDirectBlocks then
    readPhyBlock dev (d.blockNr logBlockNr)
  else
    let logBlockNr := logBlockNr - nrDirectBlocks
    if logBlockNr ≥ nrIndirectBlocks then
      let logBlockNr := logBlockNr - nrIndirectBlocks
      if logBlockNr ≥ nrIndirectBlocks * nrIndirectBlocks then
        return (-EFBIG, Block.zero)
      if d.iDindirect > 0 then
        let block ← dev.read d.iDindirect
        let position := logBlockNr / nrIndirectBlocks
        let newBlock := block.int position
        if newBlock > 0 then
          let block ← dev.read newBlock
          readPhyBlock dev (block.int (logBlockNr % nrIndirectBlocks))
        else
          -- the buffer still holds the double indirect table here
          return (newBlock, block)
      else readPhyBlock dev 0
    else if d.iIndirect > 0 then
      let block ← dev.read d.iIndirect
      readPhyBlock dev (block.int logBlockNr)
    else readPhyBlock dev 0

/-- The loop over whole blocks of `testfs_read_data` and the copy of the tail after it. -/
def readRest (d : Dinode) (dev : Dev) (blockNr blockIx : Int) (size : Nat) :
    Nat → Nat → Int → (Nat → UInt8) → Except Halt (Int × (Nat → UInt8))
  | 0, _, _, _ => .error .undefined
  | n + 1, i, sizeRemaining, buf => do
    let (ret, block) ← testfsReadBlock d dev (toInt (blockNr + i))
    if ret < 0 then return (ret, buf)
    let pos ← bufIndex i blockIx
    if sizeRemaining > blockSize then
      let buf ← copyOut buf pos block 0 blockSize
      readRest d dev blockNr blockIx size n (i + 1) (sizeRemaining - blockSize) buf
    else
      let buf ← copyOut buf pos block 0 sizeRemaining
      return (toInt size, buf)

def testfsReadData (d : Dinode) (dev : Dev) (buf : Nat → UInt8) (start : Int) (size : Nat) :
    Except Halt (Int × (Nat → UInt8)) := do
  let blockNr := start.tdiv blockSize
  let blockIx := start.tmod blockSize
  let stop ← addOff start (toOffT size)
  let size := if stop > d.iSize then toSizeT (d.iSize - start) else size
  if toSizeT (blockIx + size) > blockSize then
    if size > maxFileSize then return (-EFBIG, buf)
    let (ret, block) ← testfsReadBlock d dev (toInt blockNr)
    if ret < 0 then return (ret, buf)
    let buf ← copyOut buf 0 block blockIx (blockSize - blockIx)
    readRest d dev blockNr blockIx size (size / blockSize + 1) 1 (size - (blockSize - blockIx)) buf
  else
    let (ret, block) ← testfsReadBlock d dev (toInt blockNr)
    if ret < 0 then return (ret, buf)
    let buf ← copyOut buf 0 block blockIx size
    return (toInt size, buf)

/-- `write_blocks(in->sb, block, nr, 1)` -/
def writeBlock (nr : Int) (block : Block) : InodeM Unit := do
  Program.reads fun _ => if nr < 0 then .error .exitFseek else .ok ()
  Program.modify fun s => { s with sb.dev := s.sb.dev.write nr.toNat block }

/-- The part of `testfs_allocate_block` behind the double indirect block. -/
def allocateDouble (logBlockNr : Nat) : InodeM Int := do
  let position := logBlockNr / nrIndirectBlocks
  if logBlockNr ≥ nrIndirectBlocks * nrIndirectBlocks then return -EFBIG
  -- get the double indirect block first
  let s ← Program.get
  let dindirectAllocated := decide (s.ino.din.iDindirect = 0)
  if dindirectAllocated then
    let phyBlockNr ← testfsAllocBlockForInode
    if phyBlockNr < 0 then return phyBlockNr
    setDin fun d => { d with iDindirect := phyBlockNr }
  let s ← Program.get
  let dindirect ← Program.reads fun s =>
    if dindirectAllocated then .ok Block.zero else s.sb.dev.read s.ino.din.iDindirect
  -- get the indirect block in double indirect block
  if dindirect.int position = 0 then
    let phyBlockNr ← testfsAllocBlockForInode
    if phyBlockNr < 0 then
      if dindirectAllocated then
        testfsFreeBlockFromInode s.ino.din.iDindirect
        return phyBlockNr
      allocateEntry dindirectAllocated false dindirect Block.zero
    else
      let dindirect := dindirect.setInt position phyBlockNr
      writeBlock s.ino.din.iDindirect dindirect
      allocateEntry dindirectAllocated true dindirect Block.zero
  else
    let indirect ← Program.reads fun s => s.sb.dev.read (dindirect.int position)
    allocateEntry dindirectAllocated false dindirect indirect
where
  /-- Get the direct block. -/
  allocateEntry (dindirectAllocated indirectAllocated : Bool) (dindirect indirect : Block) :
      InodeM Int := do
    let position := logBlockNr / nrIndirectBlocks
    Program.reads fun _ =>
      assertC .allocateBlockEntryZero (indirect.int (logBlockNr % nrIndirectBlocks) = 0)
    let phyBlockNr ← testfsAllocBlockForInode
    if phyBlockNr < 0 then
      if dindirectAllocated then
        testfsFreeBlockFromInode (dindirect.int position)
        let s ← Program.get
        testfsFreeBlockFromInode s.ino.din.iDindirect
      else if indirectAllocated then
        testfsFreeBlockFromInode (dindirect.int position)
      return phyBlockNr
    writeBlock (dindirect.int position)
      (indirect.setInt (logBlockNr % nrIndirectBlocks) phyBlockNr)
    return phyBlockNr

/-- The part of `testfs_allocate_block` behind the single indirect block. -/
def allocateSingle (logBlockNr : Nat) : InodeM Int := do
  let s ← Program.get
  let indirectAllocated := decide (s.ino.din.iIndirect = 0)
  if indirectAllocated then
    let phyBlockNr ← testfsAllocBlockForInode
    if phyBlockNr < 0 then return phyBlockNr
    setDin fun d => { d with iIndirect := phyBlockNr }
  let indirect ← Program.reads fun s =>
    if indirectAllocated then .ok Block.zero else s.sb.dev.read s.ino.din.iIndirect
  -- allocate direct block
  Program.reads fun _ => assertC .allocateBlockEntryZero (indirect.int logBlockNr = 0)
  let phyBlockNr ← testfsAllocBlockForInode
  let s ← Program.get
  if phyBlockNr ≥ 0 then
    -- update indirect block
    writeBlock s.ino.din.iIndirect (indirect.setInt logBlockNr phyBlockNr)
  else if indirectAllocated then
    -- free the indirect block that was allocated
    testfsFreeBlockFromInode s.ino.din.iIndirect
  return phyBlockNr

/-- Given a logical block number, allocate a new physical block if it does not exist
already. The result is the physical block number or a negative value, and what the
buffer `block` holds. -/
def testfsAllocateBlock (logBlockNr : Int) : InodeM (Int × Block) := do
  Program.reads fun _ => assertC .allocateBlockNrNonneg (0 ≤ logBlockNr)
  let (phyBlockNr, block) ← Program.reads fun s => testfsReadBlock s.ino.din s.sb.dev logBlockNr
  if phyBlockNr ≠ 0 then return (phyBlockNr, block)
  let logBlockNr := logBlockNr.toNat
  if logBlockNr < nrDirectBlocks then
    Program.reads fun s =>
      assertC .allocateBlockEntryZero (s.ino.din.blockNr logBlockNr = 0)
    let phyBlockNr ← testfsAllocBlockForInode
    if phyBlockNr ≥ 0 then
      setDin fun d => d.setBlockNr logBlockNr phyBlockNr
    return (phyBlockNr, block)
  let logBlockNr := logBlockNr - nrDirectBlocks
  if logBlockNr ≥ nrIndirectBlocks then
    let phyBlockNr ← allocateDouble (logBlockNr - nrIndirectBlocks)
    return (phyBlockNr, block)
  let phyBlockNr ← allocateSingle logBlockNr
  return (phyBlockNr, block)

/-- `i_size = MAX(i_size, start + size)` for a nonempty write, and the dirty flag. -/
def growSize (start : Int) (size : Nat) : InodeM Unit := do
  if size > 0 then
    let stop ← Program.reads fun _ => addOff start (toOffT size)
    setDin fun d => { d with iSize := max d.iSize stop }
  setDirty

/-- The loop over whole blocks of `testfs_write_data` and the write of the tail after it. -/
def writeRest (buf : Nat → UInt8) (start blockNr blockIx : Int) (size : Nat) :
    Nat → Nat → Int → InodeM Int
  | 0, _, _ => Program.stop .undefined
  | n + 1, i, sizeRemaining => do
    let (ret, block) ← testfsAllocateBlock (toInt (blockNr + i))
    if sizeRemaining > blockSize then
      if ret < 0 then return ret
      let block ← Program.reads fun _ => do
        let pos ← bufIndex i blockIx
        copyBlock block 0 buf pos blockSize
      writeBlock ret block
      writeRest buf start blockNr blockIx size n (i + 1) (sizeRemaining - blockSize)
    else
      if ret < 0 then
        setDin fun d => { d with iSize := maxFileSize }
        setDirty
        return ret
      let block ← Program.reads fun _ => do
        let pos ← bufIndex i blockIx
        copyBlock block 0 buf pos sizeRemaining
      writeBlock ret block
      growSize start size
      return toInt size

def testfsWriteData (buf : Nat → UInt8) (start : Int) (size : Nat) : InodeM Int := do
  let blockNr := start.tdiv blockSize
  let blockIx := start.tmod blockSize
  if toSizeT (blockIx + size) > blockSize then
    let (ret, block) ← testfsAllocateBlock (toInt blockNr)
    if ret < 0 then return ret
    let block ← Program.reads fun _ => copyBlock block blockIx buf 0 (blockSize - blockIx)
    writeBlock ret block
    writeRest buf start blockNr blockIx size (size / blockSize + 1) 1
      (size - (blockSize - blockIx))
  else
    -- ret is the newly allocated physical block number
    let (ret, block) ← testfsAllocateBlock (toInt blockNr)
    if ret < 0 then return ret
    let block ← Program.reads fun _ => copyBlock block blockIx buf 0 size
    writeBlock ret block
    growSize start size
    return toInt size

/-- The loop of `testfs_free_blocks` over the direct blocks from `i` on. -/
def freeDirect (eBlockNr : Int) : Nat → Nat → InodeM Unit
  | 0, _ => pure ()
  | n + 1, i => do
    if i < eBlockNr then
      let s ← Program.get
      if s.ino.din.blockNr i ≠ 0 then
        testfsFreeBlockFromInode (s.ino.din.blockNr i)
        setDin fun d => d.setBlockNr i 0
      freeDirect eBlockNr n (i + 1)

/-- The loop over the entries of one table from `j` on, with the count `deleted` that
stops it. (The loop also clears its copy of the table, which nothing reads again.) -/
def freeTable (eBlockNr : Int) (table : Block) : Nat → Nat → Int → InodeM Int
  | 0, _, deleted => return deleted
  | n + 1, j, deleted => do
    if deleted < eBlockNr then
      testfsFreeBlockFromInode (table.int j)
      freeTable eBlockNr table n (j + 1) (deleted + 1)
    else return deleted

/-- The loop over the second-level tables from `i` on. -/
def freeDouble (eBlockNr : Int) (block : Block) : Nat → Nat → Int → InodeM Unit
  | 0, _, _ => pure ()
  | n + 1, i, deleted => do
    if deleted < eBlockNr then
      if block.int i > 0 then
        let singleBlock ← Program.reads fun s => s.sb.dev.read (block.int i)
        let deleted ← freeTable eBlockNr singleBlock nrIndirectBlocks 0 deleted
        testfsFreeBlockFromInode (block.int i)
        freeDouble eBlockNr block n (i + 1) deleted
      else freeDouble eBlockNr block n (i + 1) (deleted + nrIndirectBlocks)

def testfsFreeBlocks : InodeM Unit := do
  let s ← Program.get
  -- last block number
  let eBlockNr := toInt ((s.ino.din.iSize + blockSize - 1).tdiv blockSize)
  -- remove direct blocks
  freeDirect eBlockNr nrDirectBlocks 0
  let eBlockNr := eBlockNr - nrDirectBlocks
  -- remove indirect blocks
  let s ← Program.get
  if s.ino.din.iIndirect > 0 then
    let block ← Program.reads fun s => s.sb.dev.read s.ino.din.iIndirect
    let _ ← freeTable eBlockNr block nrIndirectBlocks 0 0
    testfsFreeBlockFromInode s.ino.din.iIndirect
    setDin fun d => { d with iIndirect := 0 }
  let eBlockNr := eBlockNr - nrIndirectBlocks
  if eBlockNr ≥ 0 then
    let s ← Program.get
    let block ← Program.reads fun s => s.sb.dev.read s.ino.din.iDindirect
    freeDouble eBlockNr block nrIndirectBlocks 0 0
    testfsFreeBlockFromInode s.ino.din.iDindirect
    setDin fun d => { d with iDindirect := 0 }
  setDin fun d => { d with iSize := 0 }
  setDirty

/-- `testfs_remove_inode` up to its `testfs_put_inode`. -/
def clearInode : InodeM Unit := do
  -- free all the data blocks
  testfsFreeBlocks
  Program.reads fun s => assertC .removeInodeBlockCountZero (s.ino.din.blockCount = 0)
  -- zero the inode
  setDin fun _ => Dinode.zero
  setDirty
  let s ← Program.get
  onSb (testfsPutInodeFreemap s.ino.iNr)
  testfsSyncInode

/-- Remove an inode and all blocks associated with it. -/
def testfsRemoveInode (nr : Nat) : FsM Unit := do
  onInode nr clearInode
  testfsPutInode nr

end Ece344Lab.Fs
