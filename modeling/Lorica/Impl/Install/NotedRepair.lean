import Lorica.Framework.Noted
import Lorica.Impl.Install.Ext2Repair

/-!
# libinstall: `ext2_repair.c` with its accesses noted

The functions of `ext2_repair.c` once more, each with notes of the elements it accesses and of
the numbers it computes: an index into a map, a bitmap, a descriptor, an inode or an array, a sum,
product or difference of block, inode and group numbers, the bytes that a transfer moves, and the
end of a loop. Without the notes these are the functions of `Ext2Repair`.
-/

namespace Lorica.Impl.Install.Noted

abbrev Rep := Try Disk.machine.noted (Option String)

def fail {α : Type} (s : String) : Rep α := throw (some s)

def orFail {α : Type} (s : String) (p : Rep α) : Rep α := ExceptT.adapt (fun _ => some s) p

open Try (note)

/-! ## Accesses and arithmetic -/

/-- `n` bytes at `o`, of `size`. -/
def touch (size o n : Nat) : Rep Unit := note (.index (o + n - 1) size)

def r16 (size : Nat) (p : Buf) (o : Nat) : Rep Nat := do
  touch size o 2
  pure (Install.r16 p o)

def r32 (size : Nat) (p : Buf) (o : Nat) : Rep Nat := do
  touch size o 4
  pure (Install.r32 p o)

def bit (size : Nat) (m : Buf) (n : Nat) : Rep Bool := do
  touch size (n / 8) 1
  pure (Install.bit m n)

def setbit (size : Nat) (m : Buf) (n : Nat) : Rep Buf := do
  touch size (n / 8) 1
  pure (Install.setbit m n)

/-- The size of a map that is allocated for `n` bits. -/
def mapSize (n : Nat) : Nat := (n + 7) / 8

def add32 (a b : Nat) : Rep Nat := do
  note (.word (a + b) 32)
  pure (a + b)

def mul32 (a b : Nat) : Rep Nat := do
  note (.word (a * b) 32)
  pure (a * b)

def sub32 (a b : Nat) : Rep Nat := do
  note (.diff a b)
  pure (a - b)

/-! ## Blocks -/

/-- To a buffer of `size` bytes. -/
def rwRead (size sectors sector count : Nat) : Rep Buf :=
  if sectors < sector ∨ sectors - sector < count then fail "filesystem read failed"
  else do
    touch size 0 (count * 512)
    match ← Try.dev (M := Disk.machine) (.read (sector * 512) (count * 512)) with
    | none => fail "filesystem read failed"
    | some buf => pure buf

def rwWrite (size sectors sector count : Nat) (buf : Buf) : Rep Unit :=
  if sectors < sector ∨ sectors - sector < count then fail "filesystem write failed"
  else do
    touch size 0 (count * 512)
    match ← Try.dev (M := Disk.machine) (.write (sector * 512) (count * 512) buf) with
    | false => fail "filesystem write failed"
    | true => pure ()

def readBlock (r : Repair) (b : Nat) : Rep Buf :=
  if r.blocks ≤ b then fail "block pointer outside filesystem"
  else do
    note (.word (b * spb) 64)
    rwRead bs r.sectors (b * spb) spb

/-- The buffer `verify` has `bs` bytes. -/
def writeCompared (size sectors sector count : Nat) (buf : Buf) : Rep Unit := do
  rwWrite size sectors sector count buf
  let verify ← rwRead bs sectors sector count
  if sameBytes (count * 512) buf verify = true then pure () else throw none

def writeBlock (r : Repair) (b : Nat) (buf : Buf) : Rep Unit :=
  orFail "filesystem write verification failed" (do
    note (.word (b * spb) 64)
    writeCompared bs r.sectors (b * spb) spb buf)

/-! ## Metadata -/

def markBlock (b : Nat) (r : Repair) : Rep Repair :=
  if r.blocks ≤ b then fail "inode references block outside filesystem"
  else do
    let used ← bit (mapSize r.blocks) r.blockRefs b
    if used = true then fail "duplicate block ownership detected"
    else do
      let refs ← setbit (mapSize r.blocks) r.blockRefs b
      pure { r with blockRefs := refs }

def groupStart (r : Geometry) (g : Nat) : Rep Nat := mul32 g r.bpg

def groupEnd (r : Geometry) (g : Nat) : Rep Nat := do
  let last ← add32 (g * r.bpg) r.bpg
  pure (min last r.blocks)

def markGroup (g : Nat) (r : Repair) : Rep Repair := do
  let first ← groupStart r.geo g
  let last ← groupEnd r.geo g
  let bb ← r32 bs r.gdt (g * descSize)
  let ib ← r32 bs r.gdt (g * descSize + 4)
  let it ← r32 bs r.gdt (g * descSize + 8)
  if bb < first ∨ last ≤ bb ∨ ib < first ∨ last ≤ ib ∨ it < first ∨ last < it then
    fail "group descriptor points outside its block group"
  else do
    let room ← sub32 last it
    if room < r.inodeTableBlocks then fail "group descriptor points outside its block group"
    else do
      let r ← Try.loop markBlock (prefixEnd r.gdt g - first) first r
      let r ← markBlock bb r
      let r ← markBlock ib r
      Try.loop (fun b r => do
        note (.word b 32)
        markBlock b r) r.inodeTableBlocks it r

def markMetadata (r : Repair) : Rep Repair := Try.loop markGroup r.groups 0 r

/-! ## Inodes -/

def readInode (ino : Nat) (r : Repair) : Rep Repair :=
  if ino = 0 ∨ r.inodes < ino then fail "directory references invalid inode"
  else do
    let table ← r32 bs r.gdt ((ino - 1) / r.ipg * descSize + 8)
    let off ← mul32 ((ino - 1) % r.ipg) r.inodeSize
    let b ← add32 table (off / bs)
    if bs < off % bs + 128 then throw none
    else do
      let block ← readBlock r b
      touch bs (off % bs) 128
      pure { r with block := block }

/-- The size of the buffer for an inode. -/
def inodeBytes : Nat := 128

def allocInode (ino : Nat) (r : Repair) : Rep Repair := do
  let r ← readInode ino r
  let mode ← r16 inodeBytes (inodeOf (inodeOff r.geo ino) r.block) 0
  if mode &&& sIfmt = 0 then throw none
  else do
    let i ← sub32 ino 1
    let alloc ← setbit (mapSize r.inodes) r.inodeAlloc i
    pure { r with inodeAlloc := alloc, missingInodes := r.missingInodes + 1 }

def dirEntry (ino : Nat) (r : Repair) : Rep Repair :=
  if ino = 0 then pure r
  else if r.inodes < ino then fail "directory inode is out of range"
  else do
    let i ← sub32 ino 1
    let allocated ← bit (mapSize r.inodes) r.inodeAlloc i
    if allocated = true then pure r
    else orFail "directory references an uninitialized inode" (allocInode ino r)

def parseDirBlock : Nat → Nat → Repair → Rep Repair
  | 0, off, r =>
    if bs ≤ off then pure r
    else do
      note .ended
      pure r
  | n + 1, off, r =>
    if bs ≤ off then pure r
    else if bs - off < 8 then fail "truncated directory entry"
    else do
      let ino ← r32 bs r.block off
      let recLen ← r16 bs r.block (off + 4)
      touch bs (off + 6) 1
      if wellFormed r.block off = false then fail "malformed directory entry"
      else do
        let next ← add32 off recLen
        let r ← dirEntry ino r
        parseDirBlock n next r

def dataBlock (isDir : Bool) (b : Nat) (s : Walk) : Rep Walk :=
  if b = 0 then
    if isDir = true ∧ s.dirBytes ≠ 0 then fail "directory contains a sparse block" else pure s
  else do
    let r ← markBlock b s.r
    if isDir = true ∧ s.dirBytes ≠ 0 then do
      let block ← readBlock r b
      let r ← parseDirBlock 512 0 { r with block := block, parsed := (b, r.inodeAlloc) :: r.parsed }
      pure ⟨r, s.dirBytes - bs⟩
    else pure ⟨r, s.dirBytes⟩

def indirect (isDir : Bool) : Nat → Nat → Walk → Rep Walk
  | 0, b, s => if b = 0 then pure s else throw none
  | depth + 1, b, s =>
    if b = 0 then pure s
    else if 2 < depth + 1 then throw none
    else do
      let r ← markBlock b s.r
      let pointers ← readBlock r b
      Try.loop (fun i s => do
        let p ← r32 bs pointers (i * 4)
        if p = 0 then pure s
        else if depth = 0 then dataBlock isDir p s
        else indirect isDir depth p s) (bs / 4) 0 { s with r := r }

def scanBlocks (isDir : Bool) (inode : Buf) (s : Walk) : Rep Repair := do
  let s ← Try.loop (fun i s => do
    let b ← r32 inodeBytes inode (40 + i * 4)
    dataBlock isDir b s) 12 0 s
  let one ← r32 inodeBytes inode 88
  let s ← indirect isDir 1 one s
  let two ← r32 inodeBytes inode 92
  let s ← indirect isDir 2 two s
  let three ← r32 inodeBytes inode 96
  if three ≠ 0 then fail "triple-indirect files require full e2fsck"
  else if isDir = true ∧ s.dirBytes ≠ 0 then fail "directory size exceeds its data blocks"
  else pure s.r

/-- `dirs_per_group` has `maxGroups` elements. -/
def countDirectory (ino : Nat) (r : Repair) : Rep Repair := do
  note (.index ((ino - 1) / r.ipg) maxGroups)
  pure (Install.countDirectory ino r)

def scanInode (ino : Nat) (r : Repair) : Rep Repair := do
  let r ← readInode ino r
  let inode := inodeOf (inodeOff r.geo ino) r.block
  let mode ← r16 inodeBytes inode 0
  if mode &&& sIfmt = 0 then
    if ino < r.firstIno ∧ ino ≠ 2 then pure r else fail "allocated inode has no file type"
  else do
    touch inodeBytes 28 4
    if skipsInode r.firstIno ino inode = true then pure r
    else do
      let size ← r32 inodeBytes inode 4
      if mode &&& sIfmt = sIfdir then do
        let r ← countDirectory ino r
        scanBlocks true inode ⟨r, size⟩
      else scanBlocks false inode ⟨r, 0⟩

/-- One round of the loop of `load_inode_maps` over the bits; `size` is that of the map `m`. -/
def copyBit (size : Nat) (block : Buf) (first i : Nat) (m : Buf) : Rep Buf := do
  let set ← bit bs block i
  if set = true then do
    let j ← add32 first i
    setbit size m j
  else pure m

def loadInodeMap (g : Nat) (r : Repair) : Rep Repair := do
  let ib ← r32 bs r.gdt (g * descSize + 4)
  let first ← mul32 g r.ipg
  let count ← sub32 r.inodes first
  let block ← readBlock r ib
  let alloc ← Try.loop (copyBit (mapSize r.inodes) block first) (min count r.ipg) 0 r.inodeAlloc
  pure { r with block := block, inodeAlloc := alloc }

def loadInodeMaps (r : Repair) : Rep Repair := Try.loop loadInodeMap r.groups 0 r

def scanNext (i : Nat) (s : Pass) : Rep Pass := do
  let allocated ← bit (mapSize s.r.inodes) s.r.inodeAlloc i
  let scanned ← bit (mapSize s.r.inodes) s.r.scanned i
  if allocated = false ∨ scanned = true then pure s
  else do
    let scanned ← setbit (mapSize s.r.inodes) s.r.scanned i
    let ino ← add32 i 1
    let r ← scanInode ino { s.r with scanned := scanned }
    pure ⟨r, true⟩

def scanPasses : Nat → Repair → Rep Repair
  | 0, r => do
    note .ended
    pure r
  | n + 1, r => do
    let s ← Try.loop scanNext r.inodes 0 ⟨r, false⟩
    if s.progress = true then scanPasses n s.r else pure s.r

def scanAll (r : Repair) : Rep Repair := scanPasses (r.inodes + 1) r

/-! ## Bitmaps and counters -/

/-- One round of the loops of `reconcile` over the bits; `size` is that of the map `refs`. -/
def fillRound (size : Nat) (refs : Buf) (first i : Nat) (f : Fill) : Rep Fill := do
  let j ← add32 first i
  let _ ← bit size refs j
  let _ ← bit bs f.map i
  let f := fillBit refs first i f
  let _ ← bit bs f.map i
  pure (countBit i f)

def reconcileMap (repair : Bool) (r : Repair) (b size : Nat) (refs : Buf) (first n : Nat) : Rep Fill := do
  let block ← readBlock r b
  let f ← Try.loop (fillRound size refs first) n 0 ⟨block, 0, 0⟩
  if f.fixed ≠ 0 ∧ repair = true then do
    writeBlock r b f.map
    pure f
  else pure f

def countGroup (repair : Bool) (g : Nat) (fb fi : Fill) (s : Totals) : Rep Totals := do
  touch bs (g * descSize + 16) 2
  note (.index g maxGroups)
  note (.word fb.free 16)
  note (.word fi.free 16)
  note (.word (s.freeBlocks + fb.free) 32)
  note (.word (s.freeInodes + fi.free) 32)
  pure (Install.countGroup repair g fb fi s)

def reconcileGroup (repair : Bool) (g : Nat) (s : Totals) : Rep Totals := do
  let r := s.r
  let bb ← r32 bs r.gdt (g * descSize)
  let ib ← r32 bs r.gdt (g * descSize + 4)
  let first ← groupStart r.geo g
  let last ← groupEnd r.geo g
  let validB ← sub32 last first
  let firstI ← mul32 g r.ipg
  let validI ← sub32 r.inodes firstI
  let fb ← reconcileMap repair r bb (mapSize r.blocks) r.blockRefs first validB
  let fi ← reconcileMap repair r ib (mapSize r.inodes) r.inodeAlloc firstI (min validI r.ipg)
  countGroup repair g fb fi s

def reconcile (repair : Bool) (r : Repair) : Rep Totals := Try.loop (reconcileGroup repair) r.groups 0 ⟨r, 0, 0⟩

/-! ## The repair -/

/-- The size of the buffer for the superblock. -/
def superBytes : Nat := 1024

/-- The checks of the numbers in a superblock. -/
def openGeometry (r : Repair) : Rep Repair := do
  note (.word (r.blocks * spb) 64)
  if validGeometry r.sectors r.geo then do
    note (.word (r.ipg * r.inodeSize + bs - 1) 32)
    if 0 < r.groups ∧ r.groups ≤ maxGroups then do
      note (.word (r.groups * r.ipg) 32)
      if validGroups r.geo then do
        -- the sum that the number of groups is computed from has not wrapped around
        note (.word (r.blocks + r.bpg - 1) 32)
        note (.word (r.blocks + 7) 32)
        note (.word (r.inodes + 7) 32)
        let gdt ← orFail "ext2 group table is unsupported" (readBlock r 1)
        pure { r with gdt := gdt }
      else fail "ext2 group table is unsupported"
    else fail "ext2 group table is unsupported"
  else fail "invalid ext2 geometry"

def openFs (sectors : Nat) : Rep Repair := do
  let sb ← orFail "not a supported LoricaOS 4 KiB ext2 filesystem" (rwRead superBytes sectors 2 2)
  touch superBytes 100 4
  if supported sb then
    let zero : Buf := fun _ => 0
    openGeometry ⟨geometry sb, sectors, sb, zero, zero, zero, zero, zero, 0, 0, 0, 0, fun _ => 0, []⟩
  else fail "not a supported LoricaOS 4 KiB ext2 filesystem"

def countSuper (s : Totals) : Rep Totals := do
  touch superBytes 12 4
  touch superBytes 16 4
  pure (Install.countSuper s)

def check (sectors : Nat) : Rep Totals := do
  let r ← openFs sectors
  let r ← markMetadata r
  let r ← loadInodeMaps r
  let r ← scanAll r
  let s ← reconcile false r
  countSuper s

def writeSuper (error : String) (r : Repair) : Rep Unit := orFail error (writeCompared superBytes r.sectors 2 2 r.sb)

def markInvalid (r : Repair) : Rep Repair := do
  touch superBytes 58 2
  pure (Install.markInvalid r)

def finishSuper (s : Totals) : Rep Totals := do
  touch superBytes 12 4
  touch superBytes 16 4
  touch superBytes 58 2
  pure (Install.finishSuper s)

def repairMaps (r : Repair) : Rep Totals := do
  let s ← reconcile true { r with missingBlocks := 0, counterMismatches := 0 }
  let s ← countSuper s
  writeBlock s.r 1 s.r.gdt
  let s ← finishSuper s
  writeSuper "superblock write verification failed" s.r
  pure s

def applyRepair (r : Repair) : Rep Totals := do
  let r ← markInvalid r
  writeSuper "could not mark filesystem repair in progress" r
  repairMaps r

def repairFound (repair : Bool) (s : Totals) : Rep (Bool × Totals) :=
  if repair = true ∧ needsRepair s.r = true then do
    let s ← applyRepair s.r
    pure (true, s)
  else pure (needsRepair s.r, s)

def ext2Repair (sectors : Nat) (repair : Bool) : Rep (Bool × Totals) := do
  let s ← check sectors
  repairFound repair s

/-- The end of `ext2_repair`. -/
def report (res : Bool × Totals) : Rep Report := do
  note (.diff res.2.r.blocks res.2.freeBlocks)
  note (.diff res.2.r.inodes res.2.freeInodes)
  pure (Install.report res)

def repairReport (sectors : Nat) (repair : Bool) : Rep Report := do
  let res ← ext2Repair sectors repair
  report res

end Lorica.Impl.Install.Noted
