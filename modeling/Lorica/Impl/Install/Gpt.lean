import Lorica.Framework.CString
import Lorica.Impl.Install.Blkio

/-!
# libinstall: `gpt.c`

The partition table: a protective MBR, the primary header and its entries at the start of
the disk, and a copy of both at its end. All positions are 64-bit numbers of native blocks
and wrap around. Progress and error messages are left out.
-/

namespace Lorica.Impl.Install.Gpt

def espAlignBytes : Nat := 1024 * 1024
def espSizeBytes : Nat := 8 * 1024 * 1024

/-- Subtraction of 64-bit numbers. -/
def sub64 (a b : Nat) : Nat := (a + (2 ^ 64 - b)) % 2 ^ 64

/-- Addition of 64-bit numbers. -/
def add64 (a b : Nat) : Nat := (a + b) % 2 ^ 64

/-! ## CRC32 -/

def crc32Poly : BitVec 32 := 0xEDB88320

/-- The loop of `crc32_init` for one entry. -/
def crc32Entry : Nat → BitVec 32 → BitVec 32
  | 0, c => c
  | j + 1, c => crc32Entry j ((c >>> 1) ^^^ if c &&& 1 = 1 then crc32Poly else 0)

def crc32Table (i : BitVec 32) : BitVec 32 := crc32Entry 8 i

/-- One byte of `crc32_calc`. -/
def crc32Byte (crc : BitVec 32) (b : UInt8) : BitVec 32 :=
  (crc >>> 8) ^^^ crc32Table ((crc ^^^ b.toBitVec.setWidth 32) &&& 0xFF)

def crc32Calc (data : Buf) (len : Nat) : Nat :=
  (((List.range len).foldl (fun crc (i : Nat) => crc32Byte crc (data i)) 0xFFFFFFFF) ^^^ 0xFFFFFFFF).toNat

/-! ## The layout -/

/-- The positions that `install_write_gpt` computes. -/
structure GptLayout where
  espStart : Nat
  espEnd : Nat
  rootStart : Nat
  rootEnd : Nat
  entryLbas : Nat
  lastLba : Nat
  firstUsable : Nat
  lastUsable : Nat

def entryBytes : Nat := 128 * 128

def gptLayout (diskBlocks blockSize : Nat) : GptLayout :=
  let espStart := espAlignBytes / blockSize
  let espLbas := espSizeBytes / blockSize
  let espEnd := sub64 (add64 espStart espLbas) 1
  let entryLbas := (entryBytes + blockSize - 1) / blockSize
  let lastLba := sub64 diskBlocks 1
  let lastUsable := sub64 (sub64 lastLba entryLbas) 1
  { espStart := espStart
    espEnd := espEnd
    rootStart := add64 espEnd 1
    rootEnd := lastUsable
    entryLbas := entryLbas
    lastLba := lastLba
    firstUsable := add64 2 entryLbas
    lastUsable := lastUsable }

/-! ## The blocks -/

def zeros : Buf := fun _ => 0

def protectiveMbr (diskSectors : Nat) : Buf :=
  let mbr := putBytes zeros 446 [0x00, 0x00, 0x02, 0x00, 0xEE, 0xFF, 0xFF, 0xFF, 0x01, 0, 0, 0]
  let sz := if sub64 diskSectors 1 > 0xFFFFFFFF then 0xFFFFFFFF else sub64 diskSectors 1
  putBytes (putLe mbr 458 4 sz) 510 [0x55, 0xAA]

def espGuid : Bytes :=
  [0x28, 0x73, 0x2A, 0xC1, 0x1F, 0xF8, 0xD2, 0x11, 0xBA, 0x4B, 0x00, 0xA0, 0xC9, 0x3E, 0xC9, 0x3B]

def aegisRootGuid : Bytes :=
  [0x24, 0x8F, 0x61, 0xA3, 0x76, 0x0C, 0x3D, 0x4B, 0x00, 0x01, 0x00, 0x00, 0x00, 0x00, 0x00, 0x00]

/-- One partition entry at `off`. -/
def putEntryAt (entries : Buf) (off : Nat) (guid unique : Bytes) (first last : Nat) : Buf :=
  putLe (putLe (putBytes (putBytes entries off guid) (off + 16) unique) (off + 32) 8 first) (off + 40) 8 last

def gptEntries (l : GptLayout) : Buf :=
  let entries := putEntryAt zeros 0 espGuid [0x01, 0x02, 0x03, 0x04] l.espStart l.espEnd
  putEntryAt entries 128 aegisRootGuid [0x05, 0x06, 0x07, 0x08] l.rootStart l.rootEnd

/-- A header without its checksum. -/
def gptFields (l : GptLayout) (entryCrc myLba altLba entriesLba : Nat) : Buf :=
  let sector := putBytes zeros 0 (ascii "EFI PART")
  let sector := putLe (putLe sector 8 4 0x00010000) 12 4 92
  let sector := putLe (putLe sector 24 8 myLba) 32 8 altLba
  let sector := putLe (putLe sector 40 8 l.firstUsable) 48 8 l.lastUsable
  let sector := putLe (putBytes sector 56 [0xAE, 0x61, 0x15, 0x00]) 72 8 entriesLba
  putLe (putLe (putLe sector 80 4 128) 84 4 128) 88 4 entryCrc

/-- The header with its checksum. -/
def gptSealed (sector : Buf) : Buf := putLe sector 16 4 (crc32Calc sector 92)

def primaryHeader (l : GptLayout) (entryCrc : Nat) : Buf := gptSealed (gptFields l entryCrc 1 l.lastLba 2)

def backupHeader (l : GptLayout) (entryCrc : Nat) : Buf :=
  gptSealed (putLe (gptFields l entryCrc l.lastLba 1 (sub64 l.lastLba l.entryLbas)) 16 4 0)

/-! ## Writing -/

section

variable {fixed : Bytes → Option Buf}

/-- `s_blkbuf`: the data, and zeros up to the end of the block. -/
def blockBuf (data : Buf) (dataLen blockSize : Nat) : Buf := fun i => if i < min dataLen blockSize then data i else 0

def writeBlock (devname : Bytes) (lba : Nat) (data : Buf) (dataLen blockSize : Nat) : Prog (Blkio.machine fixed) Bool :=
  Blkio.write devname lba 1 (blockBuf data dataLen blockSize)

/-- How much of the entries goes into the block at `off`. -/
def entryCopy (off blockSize : Nat) : Nat := if off + blockSize > entryBytes then entryBytes - off else blockSize

/-- The loops over the blocks of the entries, from `start` on, with `n` blocks to go. -/
def writeEntries (devname : Bytes) (entries : Buf) (blockSize start : Nat) : Nat → Nat → Prog (Blkio.machine fixed) Bool
  | _, 0 => pure true
  | i, n + 1 => do
    let off := i * blockSize
    if ← writeBlock devname (add64 start i) (fun k => entries (off + k)) (entryCopy off blockSize) blockSize then
      writeEntries devname entries blockSize start (i + 1) n
    else pure false

/-- `install_write_gpt`; `true` for the result 0. -/
def installWriteGpt (devname : Bytes) (diskBlocks blockSize : Nat) : Prog (Blkio.machine fixed) Bool :=
  let l := gptLayout diskBlocks blockSize
  if l.rootEnd ≤ l.rootStart then pure false
  else do
    let entries := gptEntries l
    let entryCrc := crc32Calc entries entryBytes
    if ← writeBlock devname 0 (protectiveMbr diskBlocks) 512 blockSize then
      if ← writeBlock devname 1 (primaryHeader l entryCrc) 512 blockSize then
        if ← writeEntries devname entries blockSize 2 0 l.entryLbas then
          if ← writeEntries devname entries blockSize (sub64 l.lastLba l.entryLbas) 0 l.entryLbas then
            writeBlock devname l.lastLba (backupHeader l entryCrc) 512 blockSize
          else pure false
        else pure false
      else pure false
    else pure false

end

end Lorica.Impl.Install.Gpt
