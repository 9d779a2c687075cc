import Lorica.Impl.Install.Ext2Repair

/-!
# libinstall: `ext2_grow.c`

A file system of one block group is made larger: group 0 is filled up, new groups are
written after it, and the superblock that tells of them comes last. `rd16`, `rd32`, `wr16`
and `wr32` are the functions of `ext2_repair.c` under other names. Numbers are those of the
source where these cannot wrap; the sums that can are reduced.
-/

namespace Lorica.Impl.Install

/-- The size of the buffer of zeros, in blocks. -/
def zeroChunk : Nat := 16

/-! ## Blocks -/

/-- `rw`, reading. -/
def growRead (sector count : Nat) : Rep Buf := do
  match ← Try.lift (Dev.read (sector * 512) (count * 512)) with
  | none => throw none
  | some buf => pure buf

/-- `read_block`. -/
def growReadBlock (block : Nat) : Rep Buf := growRead (block * spb) spb

/-- `rw`, writing. -/
def growWrite (sector count : Nat) (buf : Buf) : Rep Unit := do
  match ← Try.lift (Dev.write (sector * 512) (count * 512) buf) with
  | false => throw none
  | true => pure ()

/-- `write_checked`. -/
def writeChecked (sector count : Nat) (buf : Buf) : Rep Unit :=
  if 65536 < count * 512 then throw none
  else do
    growWrite sector count buf
    let check ← growRead sector count
    if sameBytes (count * 512) buf check = true then pure () else throw none

/-- `write_block`. -/
def growWriteBlock (block : Nat) (buf : Buf) : Rep Unit := writeChecked (block * spb) spb buf

/-- `zero_blocks`, a chunk in each round. -/
def zeroBlocks (first count : Nat) : Rep Unit :=
  Try.loop (fun c _ => writeChecked ((first + c * zeroChunk) * spb) (min (count - c * zeroChunk) zeroChunk * spb)
    fun _ => 0) ((count + zeroChunk - 1) / zeroChunk) 0 ()

/-! ## Groups -/

/-- The loop of `is_power`; `n` rounds are enough. -/
def stripBase (base : Nat) : Nat → Nat → Nat
  | 0, n => n
  | k + 1, n => if n % base = 0 then stripBase base k (n / base) else n

/-- `is_power`. -/
def isPower (n base : Nat) : Bool := 1 ≤ n && stripBase base n n == 1

/-- Groups with copies of the superblock and the descriptors. -/
def hasSparseSuper (group : Nat) : Bool :=
  group == 0 || group == 1 || isPower group 3 || isPower group 5 || isPower group 7

def clearbit (m : Buf) (n : Nat) : Buf := fun i =>
  if i = n / 8 then m i &&& ~~~ UInt8.ofNat (2 ^ (n % 8)) else m i

/-- `n` bits from `first` on. -/
def clearBits : Nat → Nat → Buf → Buf
  | 0, _, map => map
  | n + 1, first, map => clearBits n (first + 1) (clearbit map first)

/-- `bitmap_clear_range`. -/
def bitmapClearRange (map : Buf) (first last : Nat) : Buf := clearBits (last - first) first map

/-- A descriptor of a new group. -/
def bgdSet (gdt : Buf) (group blockBitmap inodeBitmap inodeTable freeBlocks freeInodes : Nat) : Buf :=
  let o := group * descSize
  let gdt : Buf := fun i => if o ≤ i ∧ i < o + descSize then 0 else gdt i
  let gdt := w32 gdt o blockBitmap
  let gdt := w32 gdt (o + 4) inodeBitmap
  let gdt := w32 gdt (o + 8) inodeTable
  let gdt := w16 gdt (o + 12) freeBlocks
  w16 gdt (o + 14) freeInodes

/-! ## The size -/

/-- The number of descriptor blocks that are kept for later. -/
def reservedGdt (sb : Buf) : Nat := r16 sb 206

def growSupported (sb : Buf) : Prop := r16 sb 56 = magic ∧ r32 sb 24 = 2 ∧ r32 sb 20 = 0

instance (sb : Buf) : Decidable (growSupported sb) := inferInstanceAs (Decidable (_ ∧ _))

def resizable (sb : Buf) : Prop :=
  r32 sb 4 ≠ 0 ∧ r32 sb 32 ≠ 0 ∧ r32 sb 32 ≤ bs * 8 ∧ r32 sb 40 ≠ 0 ∧ r32 sb 40 ≤ 65535 ∧ 128 ≤ r16 sb 88 ∧
    r16 sb 88 ≤ bs ∧ r16 sb 88 &&& (r16 sb 88 - 1) = 0 ∧ reservedGdt sb ≤ 64 ∧ r32 sb 92 &&& 0x10 ≠ 0 ∧
    r32 sb 100 &&& 1 ≠ 0

instance (sb : Buf) : Decidable (resizable sb) := inferInstanceAs (Decidable (_ ∧ _))

/-- The number of blocks that the partition has room for. -/
def partitionBlocks (sb : Buf) (targetSectors : Nat) : Nat :=
  min (min (targetSectors / spb) (maxGroups * r32 sb 32)) (2 ^ 32 - 1)

/-- What the metadata of a group takes, with the copies before it. -/
def groupPrefix (sb : Buf) (g : Nat) : Nat := if hasSparseSuper g = true then 2 + reservedGdt sb else 0

def groupTaken (sb : Buf) (g : Nat) : Nat := groupPrefix sb g + 2 + (geometry sb).inodeTableBlocks

/-- The new size. -/
structure Plan where
  groups : Nat
  targetBlocks : Nat

def groupsFor (sb : Buf) (blocks : Nat) : Nat := (blocks + r32 sb 32 - 1) / r32 sb 32

/-- A last group that is too small for its metadata is left out. -/
def plan (sb : Buf) (blocks : Nat) : Plan :=
  let groups := groupsFor sb blocks
  if 1 < groups ∧ blocks - (groups - 1) * r32 sb 32 ≤ groupTaken sb (groups - 1) then
    ⟨groups - 1, (groups - 1) * r32 sb 32⟩
  else ⟨groups, blocks⟩

/-! ## Growing -/

/-- The variables of the loops of `ext2_grow`. -/
structure Grow where
  gdt : Buf
  freeBlocks : Nat
  backupCount : Nat

/-- Group 0 becomes as large as its bitmap allows. -/
def group0End (sb : Buf) (p : Plan) : Nat := if p.groups = 1 then p.targetBlocks else r32 sb 32

def growGroup0 (sb : Buf) (p : Plan) (gdt : Buf) : Rep Grow :=
  let bb := r32 gdt 0
  let added := group0End sb p - r32 sb 4
  if bb = 0 then fail "cannot read ext2 block bitmap"
  else do
    let bitmap ← orFail "cannot read ext2 block bitmap" (growReadBlock bb)
    orFail "cannot expand ext2 group zero bitmap"
      (growWriteBlock bb (bitmapClearRange bitmap (r32 sb 4) (group0End sb p)))
    pure ⟨w16 gdt 12 (r16 gdt 12 + added), r32 sb 12 + added, 0⟩

/-- How many blocks a new group has. -/
def groupValid (sb : Buf) (p : Plan) (g : Nat) : Nat := min (p.targetBlocks - g * r32 sb 32) (r32 sb 32)

def ones : Buf := fun _ => 0xff

/-- The variables after group `g`. -/
def addGroup (sb : Buf) (p : Plan) (g : Nat) (s : Grow) : Grow :=
  let bb := g * r32 sb 32 + groupPrefix sb g
  let free := groupValid sb p g - groupTaken sb g
  ⟨bgdSet s.gdt g bb (bb + 1) (bb + 2) free (r32 sb 40), s.freeBlocks + free,
    if hasSparseSuper g = true then s.backupCount + 1 else s.backupCount⟩

/-- One round of the loop over the new groups. -/
def growGroup (sb : Buf) (p : Plan) (g : Nat) (s : Grow) : Rep Grow :=
  let bb := g * r32 sb 32 + groupPrefix sb g
  let valid := groupValid sb p g
  let taken := groupTaken sb g
  if valid ≤ taken then fail "target ext2 group is too small for metadata"
  else do
    orFail "cannot write ext2 block bitmap" (growWriteBlock bb (bitmapClearRange ones taken valid))
    orFail "cannot write ext2 inode bitmap" (growWriteBlock (bb + 1) (bitmapClearRange ones 0 (r32 sb 40)))
    orFail "cannot initialize ext2 inode table" (zeroBlocks (bb + 2) (geometry sb).inodeTableBlocks)
    pure (addGroup sb p g s)

/-- The superblock of the larger file system. -/
def growSuper (sb : Buf) (p : Plan) (freeBlocks : Nat) : Buf :=
  let sb₁ := w32 sb 0 (p.groups * r32 sb 40)
  let sb₁ := w32 sb₁ 4 p.targetBlocks
  let sb₁ := w32 sb₁ 8 (p.targetBlocks / 20)
  let sb₁ := w32 sb₁ 12 freeBlocks
  let sb₁ := w32 sb₁ 16 (r32 sb₁ 16 + (p.groups - 1) * r32 sb 40)
  w16 sb₁ 58 (r16 sb₁ 58 ||| 1)

/-- The block of inode 7, and its offset there. -/
def resizeBlock (sb gdt : Buf) : Nat := (r32 gdt 8 + 6 * r16 sb 88 / bs) % 2 ^ 32

def resizeOff (sb : Buf) : Nat := 6 * r16 sb 88 % bs

/-- The references to the copies of a reserved block, from group `g` on. -/
def backupRefs (sb : Buf) (r : Nat) : Nat → Nat → Nat → Buf → Buf
  | 0, _, _, refs => refs
  | n + 1, g, idx, refs =>
    if hasSparseSuper g = true then
      backupRefs sb r n (g + 1) (idx + 1) (w32 refs (idx * 4) (g * r32 sb 32 + 2 + r))
    else backupRefs sb r n (g + 1) idx refs

/-- The reserved block number `r`, in the double-indirect block of inode 7. -/
def growReserved (sb : Buf) (p : Plan) (dind : Buf) (r : Nat) (_ : Unit) : Rep Unit :=
  let primary := r32 dind ((r + 1) * 4)
  if primary = 0 then fail "invalid ext2 reserved GDT block"
  else do
    let _ ← orFail "invalid ext2 reserved GDT block" (growReadBlock primary)
    orFail "cannot update ext2 resize inode map"
      (growWriteBlock primary (backupRefs sb r (p.groups - 1) 1 0 fun _ => 0))

/-- Inode 7, whose number of sectors is counted up. -/
def resizeInode (sb : Buf) (backupCount : Nat) (block : Buf) : Buf :=
  w32 block (resizeOff sb + 28) (r32 block (resizeOff sb + 28) + backupCount * reservedGdt sb * spb)

def growResizeInode (sb : Buf) (p : Plan) (s : Grow) : Rep Unit :=
  if reservedGdt sb = 0 then pure ()
  else do
    let block ← orFail "cannot read ext2 resize inode" (growReadBlock (resizeBlock sb s.gdt))
    let dind := r32 block (resizeOff sb + 92)
    if dind = 0 then fail "invalid ext2 resize inode"
    else do
      let refs ← orFail "invalid ext2 resize inode" (growReadBlock dind)
      Try.loop (growReserved sb p refs) (reservedGdt sb) 0 ()
      orFail "cannot update ext2 resize inode"
        (growWriteBlock (resizeBlock sb s.gdt) (resizeInode sb s.backupCount block))

/-- A copy of the superblock. -/
def backupSuper (sb : Buf) (g : Nat) : Buf := w16 (fun i => if i < 1024 then sb i else 0) 90 g

/-- One round of the loop over the copies. `sb₁` is the new superblock. -/
def growBackup (sb sb₁ gdt : Buf) (g : Nat) (_ : Unit) : Rep Unit :=
  if hasSparseSuper g = true then do
    let start := g * r32 sb 32
    orFail "cannot write ext2 backup metadata" (growWriteBlock start (backupSuper sb₁ g))
    orFail "cannot write ext2 backup metadata" (growWriteBlock (start + 1) gdt)
    Try.loop (fun r _ => orFail "cannot write ext2 reserved GDT backup" (zeroBlocks (start + 2 + r) 1))
      (reservedGdt sb) 0 ()
  else pure ()

/-- `ext2_grow` up to the write of the superblock, which is its result. -/
def growBody (sb : Buf) (p : Plan) : Rep Buf := do
  let gdt ← orFail "cannot read ext2 group descriptors" (growReadBlock 1)
  let s ← growGroup0 sb p gdt
  let s ← Try.loop (growGroup sb p) (p.groups - 1) 1 s
  let sb₁ := growSuper sb p s.freeBlocks
  growResizeInode sb p s
  Try.loop (growBackup sb sb₁ s.gdt) (p.groups - 1) 1 ()
  orFail "cannot commit ext2 group descriptors" (growWriteBlock 1 s.gdt)
  pure sb₁

def growTo (sb : Buf) (p : Plan) : Rep Nat := do
  let sb₁ ← growBody sb p
  orFail "cannot commit expanded ext2 superblock" (writeChecked 2 2 sb₁)
  pure (p.targetBlocks * spb)

/-- `ext2_grow` for a superblock. -/
def growFs (targetSectors : Nat) (sb : Buf) : Rep Nat :=
  if ¬ growSupported sb then fail "root filesystem is not supported 4 KiB ext2"
  else if ¬ resizable sb then fail "root filesystem has unsupported resize geometry"
  else if (r32 sb 4 + r32 sb 32 - 1) % 2 ^ 32 / r32 sb 32 ≠ 1 then
    fail "root filesystem is not the expected single-group image"
  else if partitionBlocks sb targetSectors ≤ r32 sb 4 then pure (r32 sb 4 * spb)
  else if maxGroups < groupsFor sb (partitionBlocks sb targetSectors) ∨
      bs < groupsFor sb (partitionBlocks sb targetSectors) * descSize then
    fail "root filesystem exceeds Aegis group-table limit"
  else growTo sb (plan sb (partitionBlocks sb targetSectors))

/-- `ext2_grow`: its result is `*grown_sectors`. -/
def ext2Grow (targetSectors : Nat) : Rep Nat :=
  if targetSectors < spb then fail "cannot read ext2 superblock"
  else do
    let sb ← orFail "cannot read ext2 superblock" (growRead 2 2)
    growFs targetSectors sb

end Lorica.Impl.Install
