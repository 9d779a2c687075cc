import Lorica.Framework.Disk
import Lorica.Framework.Path

/-!
# lorica-update: `main.c`

The kernel lies in a slot of fixed size, the file `BOOT/AEGIS.ELF` of the FAT16 file
system on the ESP, and the previous kernel in a second one, `BOOT/AEGIS.OLD`. An update
copies the current slot to the old one, and then writes the staged kernel to the
current slot, cluster by cluster; the directory and the FAT are not changed.

`fs->io` is an operation here (`Dev.read`, `Dev.write`); `raw_io`, which makes it of
whole blocks of the device, is `rawRead` and `rawWrite`, and `lower` puts these in its
place. What `main` does besides (choosing the disk, running herald, messages) is left
out.
-/

namespace Lorica.Impl.Update

def espOffset : Nat := 1024 * 1024
def espSectors : Nat := 16384
def kernelSlot : Nat := 3 * 1024 * 1024

def le16 (p : Buf) (o : Nat) : Nat := (p o).toNat + 256 * (p (o + 1)).toNat

def le32 (p : Buf) (o : Nat) : Nat := le16 p o + 65536 * le16 p (o + 2)

/-! ## The file system -/

/-- `fat16_t`. -/
structure Fat16 where
  bytesPerSector : Nat
  sectorsPerCluster : Nat
  fatSector : Nat
  rootSector : Nat
  rootSectors : Nat
  dataSector : Nat
  clusterCount : Nat
deriving DecidableEq

/-- `fat_file_t`. -/
structure FatFile where
  firstCluster : Nat
  size : Nat
deriving DecidableEq

/-- The number of sectors, which has two places in the boot sector. -/
def totalSectors (b : Buf) : Nat := if le16 b 19 ≠ 0 then le16 b 19 else le32 b 32

/-- What `fat_open` makes of the boot sector. -/
def fatOfBoot (b : Buf) : Option Fat16 :=
  let bytesPerSector := le16 b 11
  let sectorsPerCluster := (b 13).toNat
  let reserved := le16 b 14
  let fats := (b 16).toNat
  let rootEntries := le16 b 17
  let total := totalSectors b
  let fatSectors := le16 b 22
  let rootSectors := (rootEntries * 32 + 511) / 512
  let rootSector := reserved + fats * fatSectors
  let dataSector := rootSector + rootSectors
  let clusterCount := (total - dataSector) / sectorsPerCluster
  if b 510 ≠ 0x55 ∨ b 511 ≠ 0xaa then none
  else if bytesPerSector ≠ 512 ∨ sectorsPerCluster = 0 ∨ fats = 0 ∨ fatSectors = 0 ∨ total ≠ espSectors then none
  else if total ≤ dataSector then none
  else if 4085 ≤ clusterCount ∧ clusterCount < 65525 then
    some ⟨bytesPerSector, sectorsPerCluster, reserved, rootSector, rootSectors, dataSector, clusterCount⟩
  else none

/-- `fat_open`. -/
def fatOpen : Dev (Option Fat16) := do
  match ← Dev.read espOffset 512 with
  | none => pure none
  | some b => pure (fatOfBoot b)

/-- `sector_off`. -/
def sectorOff (fs : Fat16) (sector : Nat) : Nat := espOffset + sector * fs.bytesPerSector

/-- The offset of the entry of a cluster in the FAT. -/
def entryOff (fs : Fat16) (cluster : Nat) : Nat := sectorOff fs fs.fatSector + cluster * 2

/-- `fat_next`. -/
def fatNext (fs : Fat16) (cluster : Nat) : Dev (Option Nat) := do
  match ← Dev.read (entryOff fs cluster) 2 with
  | none => pure none
  | some e => pure (some (le16 e 0))

/-- `cluster_off`. -/
def clusterOff (fs : Fat16) (cluster : Nat) : Nat :=
  sectorOff fs (fs.dataSector + (cluster - 2) * fs.sectorsPerCluster)

def clusterBytes (fs : Fat16) : Nat := fs.sectorsPerCluster * 512

/-! ## Directories -/

/-- The entries of a block of a directory, from number `j`: the answer of `dir_find`,
or nothing if it goes on. -/
def dirEntries (name : Bytes) (block : Buf) : Nat → Nat → Option (Option FatFile)
  | 0, _ => none
  | n + 1, j =>
    let e : Buf := fun i => block (32 * j + i)
    if e 0 = 0 then some none
    else if e 0 = 0xe5 ∨ e 11 = 0x0f then dirEntries name block n (j + 1)
    else if (List.range 11).map e = name then some (some ⟨le16 e 26, le32 e 28⟩)
    else dirEntries name block n (j + 1)

/-- The blocks of a directory from number `i`, at the offsets `off`: `none` is an error,
and `some none` goes on. -/
def dirBlocks (name : Bytes) (off : Nat → Nat) : Nat → Nat → Dev (Option (Option (Option FatFile)))
  | 0, _ => pure (some none)
  | n + 1, i => do
    match ← Dev.read (off i) 512 with
    | none => pure none
    | some block =>
      match dirEntries name block 16 0 with
      | some r => pure (some (some r))
      | none => dirBlocks name off n (i + 1)

/-- A cluster that has a place in the data area. -/
def inRange (fs : Fat16) (cluster : Nat) : Bool := 2 ≤ cluster && cluster < fs.clusterCount + 2

/-- The clusters of a directory; `left` more may follow. -/
def dirClusters (fs : Fat16) (name : Bytes) : Nat → Nat → Dev (Option (Option FatFile))
  | left, cluster => do
    match ← dirBlocks name (fun i => clusterOff fs cluster + i * 512) fs.sectorsPerCluster 0 with
    | none => pure none
    | some (some r) => pure (some r)
    | some none =>
      match left with
      | 0 => pure none
      | left + 1 => do
        match ← fatNext fs cluster with
        | none => pure none
        | some next =>
          if 0xfff8 ≤ next then pure (some none)
          else if inRange fs next = false then pure none
          else dirClusters fs name left next

/-- `dir_find`: `none` is an error, `some none` an entry that is not there. -/
def dirFind (fs : Fat16) (dirCluster : Nat) (name : Bytes) : Dev (Option (Option FatFile)) :=
  if dirCluster = 0 then do
    match ← dirBlocks name (fun i => sectorOff fs (fs.rootSector + i)) fs.rootSectors 0 with
    | none => pure none
    | some (some r) => pure (some r)
    | some none => pure (some none)
  else if inRange fs dirCluster = false then pure none
  else dirClusters fs name fs.clusterCount dirCluster

/-! ## Files -/

/-- One transfer of `file_io`: `n` bytes at `off`, read, or written from `buf`. -/
def chunkIo (buf : Option Buf) (off done n : Nat) : Dev (Option Buf) :=
  match buf with
  | none => Dev.read off n
  | some buf => do
    if ← Dev.write off n (fun i => buf (done + i)) then pure (some fun i => buf (done + i)) else pure none

/-- The first `n` bytes of one buffer, and another. -/
def joinBufs (n : Nat) (a b : Buf) : Buf := fun i => if i < n then a i else b (i - n)

/-- One round of `file_io`: `n` bytes of a cluster, and what `loop` does from the next. -/
def fileRound (fs : Fat16) (size : Nat) (buf : Option Buf) (loop : Nat → Dev (Option Buf)) (cluster done n : Nat) :
    Dev (Option Buf) := do
  match ← chunkIo buf (clusterOff fs cluster) done n with
  | none => pure none
  | some chunk =>
    if done + n = size then pure (some chunk)
    else do
      match ← fatNext fs cluster with
      | none => pure none
      | some next =>
        if 0xfff8 ≤ next then pure none
        else do
          let rest ← loop next
          pure (rest.map (joinBufs n chunk))

/-- The loop of `file_io`, with `left` clusters to go at most: the bytes from `done`. -/
def fileLoop (fs : Fat16) (size : Nat) (buf : Option Buf) : Nat → Nat → Nat → Dev (Option Buf)
  | 0, _, done => pure (if size ≤ done then some fun _ => 0 else none)
  | left + 1, cluster, done =>
    let n := min (size - done) (clusterBytes fs)
    if size ≤ done then pure (some fun _ => 0)
    else if inRange fs cluster = false then pure none
    else fileRound fs size buf (fun next => fileLoop fs size buf left next (done + n)) cluster done n

/-- `file_io`: the contents of a file, or of `buf`, which it is given. -/
def fileIo (fs : Fat16) (f : FatFile) (buf : Option Buf) : Dev (Option Buf) :=
  fileLoop fs f.size buf fs.clusterCount f.firstCluster 0

/-- The loop of `mark_chain`: the clusters marked in the end. -/
def markLoop (fs : Fat16) : Nat → Nat → List Nat → Dev (Option (List Nat))
  | 0, _, used => pure (some used)
  | need + 1, cluster, used =>
    if inRange fs cluster = false ∨ cluster ∈ used then pure none
    else if need = 0 then pure (some (cluster :: used))
    else do
      match ← fatNext fs cluster with
      | none => pure none
      | some next => if 0xfff8 ≤ next then pure none else markLoop fs need next (cluster :: used)

/-- How many clusters a file has. -/
def clustersNeeded (fs : Fat16) (f : FatFile) : Nat := (f.size + clusterBytes fs - 1) / clusterBytes fs

/-- `mark_chain`. -/
def markChain (fs : Fat16) (f : FatFile) (used : List Nat) : Dev (Option (List Nat)) :=
  markLoop fs (clustersNeeded fs f) f.firstCluster used

def bootName : Bytes := ascii "BOOT       "
def kernelName : Bytes := ascii "AEGIS   ELF"
def oldName : Bytes := ascii "AEGIS   OLD"

/-- The two chains must be of different clusters. -/
def slotsApart (fs : Fat16) (current old : FatFile) : Dev Bool := do
  match ← markChain fs current [] with
  | none => pure false
  | some used => do
    match ← markChain fs old used with
    | none => pure false
    | some _ => pure true

/-- `find_slots`: the current and the old slot. -/
def findSlots (fs : Fat16) : Dev (Option (FatFile × FatFile)) := do
  match ← dirFind fs 0 bootName with
  | some (some boot) => do
    match ← dirFind fs boot.firstCluster kernelName with
    | some (some current) => do
      match ← dirFind fs boot.firstCluster oldName with
      | some (some old) =>
        if current.size ≠ kernelSlot ∨ old.size ≠ kernelSlot then pure none
        else do
          if ← slotsApart fs current old then pure (some (current, old)) else pure none
      | _ => pure none
    | _ => pure none
  | _ => pure none

/-! ## The update -/

/-- `memcmp(a, b, n) == 0`. -/
def sameBytes (n : Nat) (a b : Buf) : Bool := decide (∀ i < n, a i = b i)

/-- `read_staged`: the staged file as the contents of a slot. -/
def readStaged (file : Bytes) : Option Buf :=
  let buf : Buf := fun i => file.getD i 0
  if file.length < 64 ∨ kernelSlot < file.length then none
  else if file.take 4 ≠ [0x7f, 0x45, 0x4c, 0x46] ∨ buf 4 ≠ 2 ∨ le16 buf 18 ≠ 62 ∨ buf 5 ≠ 1 then none
  else some buf

/-- Write a slot and read it back. -/
def writeVerified (fs : Fat16) (f : FatFile) (buf : Buf) : Dev Bool := do
  match ← fileIo fs f (some buf) with
  | none => pure false
  | some _ => do
    match ← fileIo fs f none with
    | none => pure false
    | some verify => pure (sameBytes kernelSlot buf verify)

/-- `main` from `fat_open` on, up to the exit status. -/
def updateKernel (staged : Buf) : Dev Bool := do
  match ← fatOpen with
  | none => pure false
  | some fs => do
    match ← findSlots fs with
    | none => pure false
    | some (currentSlot, oldSlot) => do
      match ← fileIo fs currentSlot none with
      | none => pure false
      | some current =>
        if sameBytes kernelSlot current staged = true then pure true
        else do
          if ← writeVerified fs oldSlot current then writeVerified fs currentSlot staged
          else pure false

/-! ## Blocks -/

namespace Block

inductive Op
  | read (lba : Nat)
  | write (lba : Nat) (block : Buf)

def Op.Ret : Op → Type
  | .read _ => Option Buf
  | .write _ _ => Bool

/-- A block is transferred, or the call fails. -/
inductive Choice
  | ok
  | fail

def step (bsz : Nat) : (o : Op) → Choice → Disk → o.Ret × Disk
  | .read lba, .ok, d => (if (lba + 1) * bsz ≤ d.size then some (d.slice (lba * bsz) bsz) else none, d)
  | .read _, .fail, d => (none, d)
  | .write lba block, .ok, d =>
    if (lba + 1) * bsz ≤ d.size then (true, d.overwrite (lba * bsz) bsz block) else (false, d)
  | .write _ _, .fail, d => (false, d)

/-- `li_blkdev_io` of one block, on a device with blocks of `bsz` bytes. -/
abbrev machine (bsz : Nat) : Machine := ⟨Disk, Op, Op.Ret, Choice, step bsz, fun _ _ d => d⟩

def read {bsz : Nat} (lba : Nat) : Prog (machine bsz) (Option Buf) := Prog.call (M := machine bsz) (.read lba)

def write {bsz : Nat} (lba : Nat) (block : Buf) : Prog (machine bsz) Bool :=
  Prog.call (M := machine bsz) (.write lba block)

end Block

/-- `raw_io`, reading; each round transfers a byte at least. -/
def rawRead (bsz : Nat) : Nat → Nat → Nat → Prog (Block.machine bsz) (Option Buf)
  | 0, _, len => pure (if len = 0 then some fun _ => 0 else none)
  | fuel + 1, off, len =>
    let at' := off % bsz
    let n := min (bsz - at') len
    if len = 0 then pure (some fun _ => 0)
    else do
      match ← Block.read (off / bsz) with
      | none => pure none
      | some block => do
        let rest ← rawRead bsz fuel (off + n) (len - n)
        pure (rest.map (joinBufs n fun i => block (at' + i)))

/-- One block of `raw_io`, writing: `n` bytes at `at'` of it; what else is in the block is
read first. -/
def rawWriteBlock (bsz lba at' n : Nat) (p : Buf) : Prog (Block.machine bsz) Bool :=
  if at' ≠ 0 ∨ n ≠ bsz then do
    match ← Block.read lba with
    | none => pure false
    | some block => Block.write lba fun i => if at' ≤ i ∧ i < at' + n then p (i - at') else block i
  else Block.write lba p

/-- `raw_io`, writing. -/
def rawWrite (bsz : Nat) : Nat → Nat → Nat → Buf → Prog (Block.machine bsz) Bool
  | 0, _, len, _ => pure (decide (len = 0))
  | fuel + 1, off, len, p =>
    let at' := off % bsz
    let n := min (bsz - at') len
    if len = 0 then pure true
    else do
      if ← rawWriteBlock bsz (off / bsz) at' n p then rawWrite bsz fuel (off + n) (len - n) fun i => p (n + i)
      else pure false

/-- A program with `raw_io` for its operations. -/
def lower (bsz : Nat) {α : Type} : Dev α → Prog (Block.machine bsz) α
  | .pure a => .pure a
  | .op (.read off len) k => do
    let r ← rawRead bsz len off len
    lower bsz (k r)
  | .op (.write off len buf) k => do
    let r ← rawWrite bsz len off len buf
    lower bsz (k r)

end Lorica.Impl.Update
