import Lorica.Impl.Install.Ext2Grow
import Lorica.Impl.Install.NotedRepair

/-!
# libinstall: `ext2_grow.c` with its accesses noted

The functions of `ext2_grow.c` with notes of the bits that they clear, of the offsets that they use
in a buffer, of products of 32 bits and of the counters of 16 bits that they store. Without the notes
these are the functions of `Ext2Grow`.

`growWith` is `ext2_grow` for what it has read as superblock and as descriptor block.
-/

namespace Lorica.Impl.Install.Noted

open Try (note)

/-! ## Blocks -/

/-- The size of the buffers `s_zero` and `s_check`. -/
def chunkBytes : Nat := 65536

def growRead (size sector count : Nat) : Rep Buf := do
  touch size 0 (count * 512)
  match ← Try.dev (M := Disk.machine) (.read (sector * 512) (count * 512)) with
  | none => throw none
  | some buf => pure buf

def growReadBlock (block : Nat) : Rep Buf := growRead bs (block * spb) spb

def growWrite (size sector count : Nat) (buf : Buf) : Rep Unit := do
  touch size 0 (count * 512)
  match ← Try.dev (M := Disk.machine) (.write (sector * 512) (count * 512) buf) with
  | false => throw none
  | true => pure ()

def writeChecked (size sector count : Nat) (buf : Buf) : Rep Unit :=
  if chunkBytes < count * 512 then throw none
  else do
    growWrite size sector count buf
    let check ← growRead chunkBytes sector count
    if sameBytes (count * 512) buf check = true then pure () else throw none

def growWriteBlock (block : Nat) (buf : Buf) : Rep Unit := writeChecked bs (block * spb) spb buf

def zeroBlocks (first count : Nat) : Rep Unit :=
  Try.loop (fun c _ => writeChecked chunkBytes
    ((first + c * zeroChunk) * spb) (min (count - c * zeroChunk) zeroChunk * spb)
    fun _ => 0) ((count + zeroChunk - 1) / zeroChunk) 0 ()

/-! ## Groups -/

def clearbit (i : Nat) (map : Buf) : Rep Buf := do
  touch bs (i / 8) 1
  pure (Install.clearbit map i)

def bitmapClearRange (map : Buf) (first last : Nat) : Rep Buf := Try.loop clearbit (last - first) first map

def bgdSet (gdt : Buf) (group blockBitmap inodeBitmap inodeTable freeBlocks freeInodes : Nat) : Rep Buf := do
  touch bs (group * descSize) descSize
  note (.word freeBlocks 16)
  note (.word freeInodes 16)
  pure (Install.bgdSet gdt group blockBitmap inodeBitmap inodeTable freeBlocks freeInodes)

/-! ## The size -/

/-- `ext2_grow` up to the group descriptors; `none` if the file system is large enough. -/
def growPlan (targetSectors : Nat) (sb : Buf) : Rep (Option Plan) := do
  touch superBytes 206 2
  if ¬ growSupported sb then fail "root filesystem is not supported 4 KiB ext2"
  else if ¬ resizable sb then fail "root filesystem has unsupported resize geometry"
  else if (Install.r32 sb 4 + Install.r32 sb 32 - 1) % 2 ^ 32 / Install.r32 sb 32 ≠ 1 then
    fail "root filesystem is not the expected single-group image"
  else do
    note (.word (maxGroups * Install.r32 sb 32) 64)
    if partitionBlocks sb targetSectors ≤ Install.r32 sb 4 then pure none
    else if maxGroups < groupsFor sb (partitionBlocks sb targetSectors) then
      fail "root filesystem exceeds Aegis group-table limit"
    else do
      note (.word (groupsFor sb (partitionBlocks sb targetSectors) * descSize) 32)
      if bs < groupsFor sb (partitionBlocks sb targetSectors) * descSize then
        fail "root filesystem exceeds Aegis group-table limit"
      else do
        note (.word (Install.r32 sb 40 * Install.r16 sb 88) 32)
        note (.word (groupsFor sb (partitionBlocks sb targetSectors) * Install.r32 sb 32) 32)
        pure (some (plan sb (partitionBlocks sb targetSectors)))

/-! ## Growing -/

def growGroup0 (sb : Buf) (p : Plan) (gdt : Buf) : Rep Grow := do
  let bb ← r32 bs gdt 0
  let added := group0End sb p - Install.r32 sb 4
  if bb = 0 then fail "cannot read ext2 block bitmap"
  else do
    let bitmap ← orFail "cannot read ext2 block bitmap" (growReadBlock bb)
    let bitmap ← bitmapClearRange bitmap (Install.r32 sb 4) (group0End sb p)
    orFail "cannot expand ext2 group zero bitmap" (growWriteBlock bb bitmap)
    let free ← r16 bs gdt 12
    note (.word (free + added) 16)
    pure ⟨Install.w16 gdt 12 (free + added), Install.r32 sb 12 + added, 0⟩

def growGroup (sb : Buf) (p : Plan) (g : Nat) (s : Grow) : Rep Grow := do
  let first ← mul32 g (Install.r32 sb 32)
  let bb := first + groupPrefix sb g
  let valid := groupValid sb p g
  let taken := groupTaken sb g
  if valid ≤ taken then fail "target ext2 group is too small for metadata"
  else do
    let gdt ← bgdSet s.gdt g bb (bb + 1) (bb + 2) (valid - taken) (Install.r32 sb 40)
    let map ← bitmapClearRange ones taken valid
    orFail "cannot write ext2 block bitmap" (growWriteBlock bb map)
    let map ← bitmapClearRange ones 0 (Install.r32 sb 40)
    orFail "cannot write ext2 inode bitmap" (growWriteBlock (bb + 1) map)
    orFail "cannot initialize ext2 inode table" (zeroBlocks (bb + 2) (geometry sb).inodeTableBlocks)
    pure ⟨gdt, s.freeBlocks + (valid - taken),
      if hasSparseSuper g = true then s.backupCount + 1 else s.backupCount⟩

def growSuper (sb : Buf) (p : Plan) (freeBlocks : Nat) : Rep Buf := do
  note (.word (p.groups * Install.r32 sb 40) 32)
  note (.word ((p.groups - 1) * Install.r32 sb 40) 32)
  touch superBytes 58 2
  pure (Install.growSuper sb p freeBlocks)

/-- One round of the loop that fills a reserved block; the references so far and their number. -/
def backupRef (sb : Buf) (r g : Nat) (refs : Buf × Nat) : Rep (Buf × Nat) :=
  if hasSparseSuper g = true then do
    let first ← mul32 g (Install.r32 sb 32)
    touch bs (refs.2 * 4) 4
    pure (Install.w32 refs.1 (refs.2 * 4) (first + 2 + r), refs.2 + 1)
  else pure refs

def growReserved (sb : Buf) (p : Plan) (dind : Buf) (r : Nat) (_ : Unit) : Rep Unit := do
  let primary ← r32 bs dind ((r + 1) * 4)
  if primary = 0 then fail "invalid ext2 reserved GDT block"
  else do
    let _ ← orFail "invalid ext2 reserved GDT block" (growReadBlock primary)
    let refs ← Try.loop (backupRef sb r) (p.groups - 1) 1 (fun _ => 0, 0)
    orFail "cannot update ext2 resize inode map" (growWriteBlock primary refs.1)

def growResizeInode (sb : Buf) (p : Plan) (s : Grow) : Rep Unit :=
  if reservedGdt sb = 0 then pure ()
  else do
    touch bs 8 4
    note (.word (6 * Install.r16 sb 88) 32)
    let block ← orFail "cannot read ext2 resize inode" (growReadBlock (resizeBlock sb s.gdt))
    let dind ← r32 bs block (resizeOff sb + 92)
    if dind = 0 then fail "invalid ext2 resize inode"
    else do
      let refs ← orFail "invalid ext2 resize inode" (growReadBlock dind)
      Try.loop (growReserved sb p refs) (reservedGdt sb) 0 ()
      touch bs (resizeOff sb + 28) 4
      note (.word (s.backupCount * reservedGdt sb * spb) 32)
      orFail "cannot update ext2 resize inode"
        (growWriteBlock (resizeBlock sb s.gdt) (resizeInode sb s.backupCount block))

def growBackup (sb sb₁ gdt : Buf) (g : Nat) (_ : Unit) : Rep Unit :=
  if hasSparseSuper g = true then do
    let start ← mul32 g (Install.r32 sb 32)
    touch bs 0 superBytes
    note (.word g 16)
    orFail "cannot write ext2 backup metadata" (growWriteBlock start (backupSuper sb₁ g))
    orFail "cannot write ext2 backup metadata" (growWriteBlock (start + 1) gdt)
    Try.loop (fun r _ => orFail "cannot write ext2 reserved GDT backup" (zeroBlocks (start + 2 + r) 1))
      (reservedGdt sb) 0 ()
  else pure ()

/-- `ext2_grow` from the group descriptors on. -/
def growTo (sb : Buf) (p : Plan) (gdt : Buf) : Rep Nat := do
  let s ← growGroup0 sb p gdt
  let s ← Try.loop (growGroup sb p) (p.groups - 1) 1 s
  let sb₁ ← growSuper sb p s.freeBlocks
  growResizeInode sb p s
  Try.loop (growBackup sb sb₁ s.gdt) (p.groups - 1) 1 ()
  orFail "cannot commit ext2 group descriptors" (growWriteBlock 1 s.gdt)
  orFail "cannot commit expanded ext2 superblock" (writeChecked superBytes 2 2 sb₁)
  pure (p.targetBlocks * spb)

/-- `ext2_grow` for a superblock, with the way to its descriptor block. -/
def growFs (readGdt : Rep Buf) (targetSectors : Nat) (sb : Buf) : Rep Nat := do
  match ← growPlan targetSectors sb with
  | none => pure (Install.r32 sb 4 * spb)
  | some p => do
    let gdt ← readGdt
    growTo sb p gdt

/-- `ext2_grow` for a superblock and a descriptor block. -/
def growWith (targetSectors : Nat) (sb gdt : Buf) : Rep Nat := growFs (pure gdt) targetSectors sb

def ext2Grow (targetSectors : Nat) : Rep Nat :=
  if targetSectors < spb then fail "cannot read ext2 superblock"
  else do
    let sb ← orFail "cannot read ext2 superblock" (growRead superBytes 2 2)
    growFs (orFail "cannot read ext2 group descriptors" (growReadBlock 1)) targetSectors sb

end Lorica.Impl.Install.Noted
