import Lorica.Framework.Disk
import Lorica.Framework.Fallible

/-!
# libinstall: `ext2_repair.c`

The check of an ext2 file system: the blocks that the metadata and the scanned inodes use
are marked in `blockRefs`, each once, and the inodes that directories name in
`inodeAlloc`; then the bitmaps and counters on the disk are brought in line with these.
Nothing is freed.

The functions take the variables `repair_t` and give them back; a function that returns
-1 ends in an error with its text, if it has one. Memory for the maps is taken to be
there. Numbers are those of the source where these cannot wrap; the one sum that can is
reduced (`geometry`).
-/

namespace Lorica.Impl.Install

def bs : Nat := 4096
def spb : Nat := 8
def magic : Nat := 0xef53
def maxGroups : Nat := 128
def descSize : Nat := 32
def sIfmt : Nat := 0xf000
def sIfreg : Nat := 0x8000
def sIfdir : Nat := 0x4000
def sIflnk : Nat := 0xa000

/-- The numbers that the superblock gives. -/
structure Geometry where
  blocks : Nat
  inodes : Nat
  bpg : Nat
  ipg : Nat
  groups : Nat
  inodeSize : Nat
  firstIno : Nat
  inodeTableBlocks : Nat

/-- `repair_t`. The buffer `verify` is left out: what is read to it is compared at once.
`parsed` is not in the source, and no function reads it: it keeps the blocks that were walked
over as directories, each with the map `inode_alloc` as it was before. -/
structure Repair extends geo : Geometry where
  sectors : Nat
  sb : Buf
  gdt : Buf
  block : Buf
  blockRefs : Buf
  inodeAlloc : Buf
  scanned : Buf
  directories : Nat
  missingBlocks : Nat
  missingInodes : Nat
  counterMismatches : Nat
  dirsPerGroup : Nat → Nat
  parsed : List (Nat × Buf)

/-- The 16-bit number at an offset. -/
def r16 (p : Buf) (o : Nat) : Nat := (p o).toNat + 256 * (p (o + 1)).toNat

/-- The 32-bit one. -/
def r32 (p : Buf) (o : Nat) : Nat := r16 p o + 65536 * r16 p (o + 2)

/-- Write a 16-bit number. -/
def w16 (p : Buf) (o v : Nat) : Buf := fun i =>
  if i = o then UInt8.ofNat v else if i = o + 1 then UInt8.ofNat (v / 256) else p i

/-- Write a 32-bit one. -/
def w32 (p : Buf) (o v : Nat) : Buf := w16 (w16 p o v) (o + 2) (v / 65536)

/-- A bit of a map. -/
def bit (m : Buf) (n : Nat) : Bool := (m (n / 8)).toNat.testBit (n % 8)

def setbit (m : Buf) (n : Nat) : Buf := fun i => if i = n / 8 then m i ||| UInt8.ofNat (2 ^ (n % 8)) else m i

/-- Programs of this file: an error has a text, as a rule. -/
abbrev Rep := Try Disk.machine (Option String)

/-- The run ends with this message. -/
def fail {α : Type} (s : String) : Rep α := throw (some s)

/-- `fail` after the failure of a part. -/
def orFail {α : Type} (s : String) (p : Rep α) : Rep α := ExceptT.adapt (fun _ => some s) p

/-! ## Blocks -/

/-- `rw`, reading. -/
def rwRead (sectors sector count : Nat) : Rep Buf :=
  if sectors < sector ∨ sectors - sector < count then fail "filesystem read failed"
  else do
    match ← Try.lift (Dev.read (sector * 512) (count * 512)) with
    | none => fail "filesystem read failed"
    | some buf => pure buf

/-- `rw`, writing. -/
def rwWrite (sectors sector count : Nat) (buf : Buf) : Rep Unit :=
  if sectors < sector ∨ sectors - sector < count then fail "filesystem write failed"
  else do
    match ← Try.lift (Dev.write (sector * 512) (count * 512) buf) with
    | false => fail "filesystem write failed"
    | true => pure ()

/-- `read_block`. -/
def readBlock (r : Repair) (b : Nat) : Rep Buf :=
  if r.blocks ≤ b then fail "block pointer outside filesystem" else rwRead r.sectors (b * spb) spb

/-- `memcmp(a, b, n) == 0`. -/
def sameBytes (n : Nat) (a b : Buf) : Bool := decide (∀ i < n, a i = b i)

/-- Write, read back and compare. -/
def writeCompared (sectors sector count : Nat) (buf : Buf) : Rep Unit := do
  rwWrite sectors sector count buf
  let verify ← rwRead sectors sector count
  if sameBytes (count * 512) buf verify = true then pure () else throw none

/-- `write_block`, with the comparison after it. -/
def writeBlock (r : Repair) (b : Nat) (buf : Buf) : Rep Unit :=
  orFail "filesystem write verification failed" (writeCompared r.sectors (b * spb) spb buf)

/-! ## Metadata -/

/-- `mark_block`: a block that is named twice is an error. -/
def markBlock (b : Nat) (r : Repair) : Rep Repair :=
  if r.blocks ≤ b then fail "inode references block outside filesystem"
  else if bit r.blockRefs b = true then fail "duplicate block ownership detected"
  else pure { r with blockRefs := setbit r.blockRefs b }

/-- `group_start`. -/
def groupStart (r : Geometry) (g : Nat) : Nat := g * r.bpg

/-- `group_end`. -/
def groupEnd (r : Geometry) (g : Nat) : Nat := min (groupStart r g + r.bpg) r.blocks

/-- The places of the bitmaps and the inode table of a group, in its descriptor. -/
def blockBitmap (gdt : Buf) (g : Nat) : Nat := r32 gdt (g * descSize)
def inodeBitmap (gdt : Buf) (g : Nat) : Nat := r32 gdt (g * descSize + 4)
def inodeTable (gdt : Buf) (g : Nat) : Nat := r32 gdt (g * descSize + 8)

/-- Where the blocks before these end: copies of the superblock and the descriptors. -/
def prefixEnd (gdt : Buf) (g : Nat) : Nat := min (min (blockBitmap gdt g) (inodeBitmap gdt g)) (inodeTable gdt g)

/-- One round of `mark_metadata`. -/
def markGroup (g : Nat) (r : Repair) : Rep Repair :=
  let first := groupStart r.geo g
  let last := groupEnd r.geo g
  let bb := blockBitmap r.gdt g
  let ib := inodeBitmap r.gdt g
  let it := inodeTable r.gdt g
  if bb < first ∨ last ≤ bb ∨ ib < first ∨ last ≤ ib ∨ it < first ∨ last < it ∨ last - it < r.inodeTableBlocks then
    fail "group descriptor points outside its block group"
  else do
    let r ← Try.loop markBlock (prefixEnd r.gdt g - first) first r
    let r ← markBlock bb r
    let r ← markBlock ib r
    Try.loop markBlock r.inodeTableBlocks it r

/-- `mark_metadata`. -/
def markMetadata (r : Repair) : Rep Repair := Try.loop markGroup r.groups 0 r

/-! ## Inodes -/

/-- The block of an inode, and its offset there. -/
def inodeBlock (r : Geometry) (gdt : Buf) (ino : Nat) : Nat :=
  inodeTable gdt ((ino - 1) / r.ipg) + (ino - 1) % r.ipg * r.inodeSize / bs

/-- Where in that block the inode is. -/
def inodeOff (r : Geometry) (ino : Nat) : Nat := (ino - 1) % r.ipg * r.inodeSize % bs

/-- An inode of a block. -/
def inodeOf (off : Nat) (block : Buf) : Buf := fun i => block (off + i)

/-- `read_inode`. It reads to the buffer `block`, where the inode is found. -/
def readInode (ino : Nat) (r : Repair) : Rep Repair :=
  if ino = 0 ∨ r.inodes < ino then fail "directory references invalid inode"
  else if bs < inodeOff r.geo ino + 128 then throw none
  else do
    let block ← readBlock r (inodeBlock r.geo r.gdt ino)
    pure { r with block := block }

/-- An inode that a directory names, and that is not allocated. -/
def allocInode (ino : Nat) (r : Repair) : Rep Repair := do
  let r ← readInode ino r
  if r16 (inodeOf (inodeOff r.geo ino) r.block) 0 &&& sIfmt = 0 then throw none
  else pure { r with inodeAlloc := setbit r.inodeAlloc (ino - 1), missingInodes := r.missingInodes + 1 }

/-- The inode number in an entry of a directory. -/
def dirEntry (ino : Nat) (r : Repair) : Rep Repair :=
  if ino = 0 then pure r
  else if r.inodes < ino then fail "directory inode is out of range"
  else if bit r.inodeAlloc (ino - 1) = true then pure r
  else orFail "directory references an uninitialized inode" (allocInode ino r)

/-- What `parse_dir_block` accepts as an entry. -/
def wellFormed (b : Buf) (off : Nat) : Bool :=
  8 ≤ r16 b (off + 4) && r16 b (off + 4) % 4 == 0 && r16 b (off + 4) ≤ bs - off &&
    (b (off + 6)).toNat ≤ r16 b (off + 4) - 8

/-- `parse_dir_block` from an offset. The block is the buffer `block`, which `read_inode`
reads to as well. An entry has 8 bytes at least, so that 512 rounds are enough. -/
def parseDirBlock : Nat → Nat → Repair → Rep Repair
  | 0, _, r => pure r
  | n + 1, off, r =>
    if bs ≤ off then pure r
    else if bs - off < 8 then fail "truncated directory entry"
    else if wellFormed r.block off = false then fail "malformed directory entry"
    else do
      let next := off + r16 r.block (off + 4)
      let r ← dirEntry (r32 r.block off) r
      parseDirBlock n next r

/-- The variables of `scan_inode`: what is left of the size of a directory. -/
structure Walk where
  r : Repair
  dirBytes : Nat

/-- `data_block`. -/
def dataBlock (isDir : Bool) (b : Nat) (s : Walk) : Rep Walk :=
  if b = 0 then
    if isDir = true ∧ s.dirBytes ≠ 0 then fail "directory contains a sparse block" else pure s
  else do
    let r ← markBlock b s.r
    if isDir = true ∧ s.dirBytes ≠ 0 then do
      let block ← readBlock r b
      let r ← parseDirBlock 512 0 { r with block := block, parsed := (b, r.inodeAlloc) :: r.parsed }
      pure ⟨r, s.dirBytes - bs⟩
    else pure ⟨r, s.dirBytes⟩

/-- `indirect`, for a block of this depth. -/
def indirect (isDir : Bool) : Nat → Nat → Walk → Rep Walk
  | 0, b, s => if b = 0 then pure s else throw none
  | depth + 1, b, s =>
    if b = 0 then pure s
    else if 2 < depth + 1 then throw none
    else do
      let r ← markBlock b s.r
      let pointers ← readBlock r b
      Try.loop (fun i s =>
        if r32 pointers (i * 4) = 0 then pure s
        else if depth = 0 then dataBlock isDir (r32 pointers (i * 4)) s
        else indirect isDir depth (r32 pointers (i * 4)) s) (bs / 4) 0 { s with r := r }

/-- The blocks of an inode. -/
def scanBlocks (isDir : Bool) (inode : Buf) (s : Walk) : Rep Repair := do
  let s ← Try.loop (fun i s => dataBlock isDir (r32 inode (40 + i * 4)) s) 12 0 s
  let s ← indirect isDir 1 (r32 inode 88) s
  let s ← indirect isDir 2 (r32 inode 92) s
  if r32 inode 96 ≠ 0 then fail "triple-indirect files require full e2fsck"
  else if isDir = true ∧ s.dirBytes ≠ 0 then fail "directory size exceeds its data blocks"
  else pure s.r

/-- A directory is counted. -/
def countDirectory (ino : Nat) (r : Repair) : Repair :=
  { r with
    directories := r.directories + 1
    dirsPerGroup := Function.update r.dirsPerGroup ((ino - 1) / r.ipg) (r.dirsPerGroup ((ino - 1) / r.ipg) + 1) }

/-- An inode that is not looked at: a reserved one, or one without blocks. -/
def skipsInode (firstIno ino : Nat) (inode : Buf) : Bool :=
  let mode := r16 inode 0 &&& sIfmt
  (ino < firstIno && ino != 2) || (mode != sIfreg && mode != sIfdir && mode != sIflnk) ||
    (mode == sIflnk && r32 inode 28 == 0)

/-- `scan_inode`. -/
def scanInode (ino : Nat) (r : Repair) : Rep Repair := do
  let r ← readInode ino r
  let inode := inodeOf (inodeOff r.geo ino) r.block
  let mode := r16 inode 0 &&& sIfmt
  if mode = 0 then
    if ino < r.firstIno ∧ ino ≠ 2 then pure r else fail "allocated inode has no file type"
  else if skipsInode r.firstIno ino inode = true then pure r
  else if mode = sIfdir then scanBlocks true inode ⟨countDirectory ino r, r32 inode 4⟩
  else scanBlocks false inode ⟨r, 0⟩

/-- How many inodes a group has. -/
def groupInodes (r : Geometry) (g : Nat) : Nat := min (r.inodes - g * r.ipg) r.ipg

/-- The bits of a map, from number `i`, that are set in another, which starts at `first`. -/
def copyBits (block : Buf) (first : Nat) : Nat → Nat → Buf → Buf
  | 0, _, m => m
  | n + 1, i, m => copyBits block first n (i + 1) (if bit block i = true then setbit m (first + i) else m)

/-- One round of `load_inode_maps`. -/
def loadInodeMap (g : Nat) (r : Repair) : Rep Repair := do
  let block ← readBlock r (inodeBitmap r.gdt g)
  pure { r with
    block := block
    inodeAlloc := copyBits block (g * r.ipg) (groupInodes r.geo g) 0 r.inodeAlloc }

/-- `load_inode_maps`. -/
def loadInodeMaps (r : Repair) : Rep Repair := Try.loop loadInodeMap r.groups 0 r

/-- The variables of `scan_all`. -/
structure Pass where
  r : Repair
  progress : Bool

/-- One round of the inner loop of `scan_all`. -/
def scanNext (i : Nat) (s : Pass) : Rep Pass :=
  if bit s.r.inodeAlloc i = false ∨ bit s.r.scanned i = true then pure s
  else do
    let r ← scanInode (i + 1) { s.r with scanned := setbit s.r.scanned i }
    pure ⟨r, true⟩

/-- The passes of `scan_all`. Each but the last scans an inode, so that there is no need for
more than one for each inode, and one. -/
def scanPasses : Nat → Repair → Rep Repair
  | 0, r => pure r
  | n + 1, r => do
    let s ← Try.loop scanNext r.inodes 0 ⟨r, false⟩
    if s.progress = true then scanPasses n s.r else pure s.r

/-- `scan_all`. -/
def scanAll (r : Repair) : Rep Repair := scanPasses (r.inodes + 1) r

/-! ## Bitmaps and counters -/

/-- The bits of a map, from number `i`: those that are to be set are, and the others are
counted. -/
structure Fill where
  map : Buf
  fixed : Nat
  free : Nat

def fillBit (refs : Buf) (first i : Nat) (f : Fill) : Fill :=
  if bit refs (first + i) = true ∧ bit f.map i = false then
    { f with map := setbit f.map i, fixed := f.fixed + 1 }
  else f

def countBit (i : Nat) (f : Fill) : Fill := if bit f.map i = false then { f with free := f.free + 1 } else f

def fillBits (refs : Buf) (first : Nat) : Nat → Nat → Fill → Fill
  | 0, _, f => f
  | n + 1, i, f => fillBits refs first n (i + 1) (countBit i (fillBit refs first i f))

/-- The variables of `reconcile`. -/
structure Totals where
  r : Repair
  freeBlocks : Nat
  freeInodes : Nat

/-- The counters of a group, in its descriptor. -/
def groupCounters (g fb fi dirs : Nat) (gdt : Buf) : Buf :=
  w16 (w16 (w16 gdt (g * descSize + 12) fb) (g * descSize + 14) fi) (g * descSize + 16) dirs

/-- A descriptor says something else. -/
def countersDiffer (g fb fi dirs : Nat) (gdt : Buf) : Prop :=
  r16 gdt (g * descSize + 12) ≠ fb ∨ r16 gdt (g * descSize + 14) ≠ fi ∨ r16 gdt (g * descSize + 16) ≠ dirs

instance (g fb fi dirs : Nat) (gdt : Buf) : Decidable (countersDiffer g fb fi dirs gdt) :=
  inferInstanceAs (Decidable (_ ∨ _ ∨ _))

/-- The bitmap in block `b`, which is written in repair mode if it has changed. -/
def reconcileMap (repair : Bool) (r : Repair) (b : Nat) (refs : Buf) (first n : Nat) : Rep Fill := do
  let block ← readBlock r b
  let f := fillBits refs first n 0 ⟨block, 0, 0⟩
  if f.fixed ≠ 0 ∧ repair = true then do
    writeBlock r b f.map
    pure f
  else pure f

/-- The variables after the bitmaps of a group. -/
def countGroup (repair : Bool) (g : Nat) (fb fi : Fill) (s : Totals) : Totals :=
  let r := { s.r with block := fi.map, missingBlocks := s.r.missingBlocks + fb.fixed }
  let dirs := s.r.dirsPerGroup g
  if countersDiffer g fb.free fi.free dirs s.r.gdt then
    ⟨{ r with
      counterMismatches := s.r.counterMismatches + 1
      gdt := if repair = true then groupCounters g fb.free fi.free dirs s.r.gdt else s.r.gdt },
      s.freeBlocks + fb.free, s.freeInodes + fi.free⟩
  else ⟨r, s.freeBlocks + fb.free, s.freeInodes + fi.free⟩

/-- One round of `reconcile`. -/
def reconcileGroup (repair : Bool) (g : Nat) (s : Totals) : Rep Totals := do
  let r := s.r
  let first := groupStart r.geo g
  let fb ← reconcileMap repair r (blockBitmap r.gdt g) r.blockRefs first (groupEnd r.geo g - first)
  let fi ← reconcileMap repair r (inodeBitmap r.gdt g) r.inodeAlloc (g * r.ipg) (groupInodes r.geo g)
  pure (countGroup repair g fb fi s)

/-- `reconcile`. -/
def reconcile (repair : Bool) (r : Repair) : Rep Totals := Try.loop (reconcileGroup repair) r.groups 0 ⟨r, 0, 0⟩

/-! ## The repair -/

/-- What the superblock must be. -/
def supported (sb : Buf) : Prop :=
  r16 sb 56 = magic ∧ r32 sb 24 = 2 ∧ r32 sb 20 = 0 ∧ r32 sb 96 &&& 0xfffffffd = 0 ∧ r32 sb 100 &&& 0xfffffffc = 0 ∧
    r32 sb 92 &&& 4 = 0

instance (sb : Buf) : Decidable (supported sb) := inferInstanceAs (Decidable (_ ∧ _))

/-- The number of groups is computed in 32 bits. -/
def geometry (sb : Buf) : Geometry where
  blocks := r32 sb 4
  inodes := r32 sb 0
  bpg := r32 sb 32
  ipg := r32 sb 40
  groups := (r32 sb 4 + r32 sb 32 - 1) % 2 ^ 32 / r32 sb 32
  inodeSize := r16 sb 88
  firstIno := r32 sb 84
  inodeTableBlocks := (r32 sb 40 * r16 sb 88 + bs - 1) / bs

/-- The first test of the sizes. -/
def validGeometry (sectors : Nat) (r : Geometry) : Prop :=
  0 < r.blocks ∧ 0 < r.inodes ∧ 0 < r.bpg ∧ 0 < r.ipg ∧ r.bpg ≤ bs * 8 ∧ r.ipg ≤ bs * 8 ∧ 128 ≤ r.inodeSize ∧
    r.inodeSize ≤ bs ∧ r.inodeSize &&& (r.inodeSize - 1) = 0 ∧ 2 ≤ r.firstIno ∧ r.firstIno ≤ r.inodes ∧
    r.blocks * spb ≤ sectors

instance (sectors : Nat) (r : Geometry) : Decidable (validGeometry sectors r) := inferInstanceAs (Decidable (_ ∧ _))

/-- The second one. -/
def validGroups (r : Geometry) : Prop :=
  0 < r.groups ∧ r.groups ≤ maxGroups ∧ r.groups * descSize ≤ bs ∧ r.inodes ≤ r.groups * r.ipg ∧
    (r.groups - 1) * r.ipg < r.inodes

instance (r : Geometry) : Decidable (validGroups r) := inferInstanceAs (Decidable (_ ∧ _))

/-- `ext2_repair` up to the group descriptors: the variables at the start of the check. -/
def openFs (sectors : Nat) : Rep Repair := do
  let sb ← orFail "not a supported LoricaOS 4 KiB ext2 filesystem" (rwRead sectors 2 2)
  if supported sb then
    let zero : Buf := fun _ => 0
    let r : Repair := ⟨geometry sb, sectors, sb, zero, zero, zero, zero, zero, 0, 0, 0, 0, fun _ => 0, []⟩
    if validGeometry sectors r.geo then
      if validGroups r.geo then do
        let gdt ← orFail "ext2 group table is unsupported" (readBlock r 1)
        pure { r with gdt := gdt }
      else fail "ext2 group table is unsupported"
    else fail "invalid ext2 geometry"
  else fail "not a supported LoricaOS 4 KiB ext2 filesystem"

/-- The counters of the superblock are counted as one. -/
def countSuper (s : Totals) : Totals :=
  if r32 s.r.sb 12 ≠ s.freeBlocks ∨ r32 s.r.sb 16 ≠ s.freeInodes then
    { s with r := { s.r with counterMismatches := s.r.counterMismatches + 1 } }
  else s

/-- The check, which reads only. -/
def check (sectors : Nat) : Rep Totals := do
  let r ← openFs sectors
  let r ← markMetadata r
  let r ← loadInodeMaps r
  let r ← scanAll r
  let s ← reconcile false r
  pure (countSuper s)

/-- Something is to be repaired. -/
def needsRepair (r : Repair) : Bool :=
  r16 r.sb 58 &&& 1 == 0 || r16 r.sb 58 &&& 2 != 0 || r.missingBlocks != 0 || r.missingInodes != 0 ||
    r.counterMismatches != 0

/-- The superblock is written. -/
def writeSuper (error : String) (r : Repair) : Rep Unit := orFail error (writeCompared r.sectors 2 2 r.sb)

/-- The superblock, with the flag of a valid file system cleared, or set at the end. -/
def markInvalid (r : Repair) : Repair := { r with sb := w16 r.sb 58 (r16 r.sb 58 &&& 0xfffe) }

/-- The file system is marked valid again. -/
def finishSuper (s : Totals) : Totals :=
  let sb := w32 (w32 s.r.sb 12 s.freeBlocks) 16 s.freeInodes
  { s with r := { s.r with sb := w16 sb 58 ((r16 sb 58 ||| 1) &&& 0xfffd) } }

/-- The repair, once the superblock says that it is in progress. -/
def repairMaps (r : Repair) : Rep Totals := do
  let s ← reconcile true { r with missingBlocks := 0, counterMismatches := 0 }
  let s := countSuper s
  writeBlock s.r 1 s.r.gdt
  let s := finishSuper s
  writeSuper "superblock write verification failed" s.r
  pure s

/-- The repair of what the check has found. -/
def applyRepair (r : Repair) : Rep Totals := do
  let r := markInvalid r
  writeSuper "could not mark filesystem repair in progress" r
  repairMaps r

/-- `ext2_repair` after the check. -/
def repairFound (repair : Bool) (s : Totals) : Rep (Bool × Totals) :=
  if repair = true ∧ needsRepair s.r = true then do
    let s ← applyRepair s.r
    pure (true, s)
  else pure (needsRepair s.r, s)

/-- `ext2_repair`: the variables at its end, and whether something was to be repaired, which
is its return value. -/
def ext2Repair (sectors : Nat) (repair : Bool) : Rep (Bool × Totals) := do
  let s ← check sectors
  repairFound repair s

/-- `ext2_repair_report_t`. -/
structure Report where
  blocks : Nat
  inodes : Nat
  directories : Nat
  blockBitsFixed : Nat
  inodeBitsFixed : Nat
  countersFixed : Nat
  wasClean : Bool

/-- What the caller is told. -/
def report (res : Bool × Totals) : Report where
  blocks := res.2.r.blocks - res.2.freeBlocks
  inodes := res.2.r.inodes - res.2.freeInodes
  directories := res.2.r.directories
  blockBitsFixed := res.2.r.missingBlocks
  inodeBitsFixed := res.2.r.missingInodes
  countersFixed := res.2.r.counterMismatches
  wasClean := !res.1

end Lorica.Impl.Install
