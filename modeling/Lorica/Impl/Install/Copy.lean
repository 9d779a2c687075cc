import Lorica.Impl.Install.Gpt

/-!
# libinstall: copying the ESP, in `copy.c`

The image of the EFI system partition is copied from a ramdisk, with blocks of 512 bytes, to
the raw disk, with blocks of its own size, 64 KiB at a time; then all of it is read back and
compared. Progress and error messages are left out. The numbers are small, since the source is
cut to the size of the partition first, and do not wrap around.
-/

namespace Lorica.Impl.Install.Copy

open Lorica.Impl.Install.Gpt

/-- `XFER_BYTES`. -/
def xferBytes : Nat := 65536

def srcPerXfer : Nat := xferBytes / ramBlockSize

variable {fixed : Bytes → Option Buf}

/-- `s_count`: the blocks of the source in the `i`-th transfer. -/
def xferCount (srcBlockCount i : Nat) : Nat :=
  if i * srcPerXfer + srcPerXfer > srcBlockCount then srcBlockCount - i * srcPerXfer else srcPerXfer

/-- A transfer buffer of zeros into which `count` blocks of the source have been read. -/
def xferBuf (data : Buf) (count : Nat) : Buf := fun i => if i < count * ramBlockSize then data i else 0

def totalXfers (srcBlockCount : Nat) : Nat := (srcBlockCount + srcPerXfer - 1) / srcPerXfer

/-- The loop of `copy_to_native`, with `n` transfers to go. -/
def copyXfers (srcDev : Bytes) (srcBlockCount : Nat) (dstDev : Bytes) (dstStartLba dstBlockSize : Nat) :
    Nat → Nat → Prog (Blkio.machine fixed) Bool
  | _, 0 => pure true
  | i, n + 1 => do
    match ← Blkio.read srcDev (i * srcPerXfer) (xferCount srcBlockCount i) with
    | none => pure false
    | some data =>
      if ← Blkio.write dstDev (dstStartLba + i * (xferBytes / dstBlockSize)) (xferBytes / dstBlockSize)
          (xferBuf data (xferCount srcBlockCount i)) then
        copyXfers srcDev srcBlockCount dstDev dstStartLba dstBlockSize (i + 1) n
      else pure false

def copyToNative (srcDev : Bytes) (srcBlockCount : Nat) (dstDev : Bytes) (dstStartLba dstBlockSize : Nat) :
    Prog (Blkio.machine fixed) Bool :=
  copyXfers srcDev srcBlockCount dstDev dstStartLba dstBlockSize 0 (totalXfers srcBlockCount)

/-- `memcmp` of whole transfer buffers. -/
def sameXfer (a b : Buf) : Bool := decide (∀ i < xferBytes, a i = b i)

/-- The loop of `verify_to_native`. -/
def verifyXfers (srcDev : Bytes) (srcBlockCount : Nat) (dstDev : Bytes) (dstStartLba dstBlockSize : Nat) :
    Nat → Nat → Prog (Blkio.machine fixed) Bool
  | _, 0 => pure true
  | i, n + 1 => do
    match ← Blkio.read srcDev (i * srcPerXfer) (xferCount srcBlockCount i) with
    | none => pure false
    | some data =>
      match ← Blkio.read dstDev (dstStartLba + i * (xferBytes / dstBlockSize)) (xferBytes / dstBlockSize) with
      | none => pure false
      | some back =>
        if sameXfer (xferBuf data (xferCount srcBlockCount i)) back = true then
          verifyXfers srcDev srcBlockCount dstDev dstStartLba dstBlockSize (i + 1) n
        else pure false

def verifyToNative (srcDev : Bytes) (srcBlockCount : Nat) (dstDev : Bytes) (dstStartLba dstBlockSize : Nat) :
    Prog (Blkio.machine fixed) Bool :=
  verifyXfers srcDev srcBlockCount dstDev dstStartLba dstBlockSize 0 (totalXfers srcBlockCount)

def ramdisk1 : Bytes := ascii "ramdisk1"

/-- The number of blocks of the ESP image; 0 if there is none. -/
def espBlocks (devs : List (Bytes × Nat)) : Nat := ((devs.find? (·.1 = ramdisk1)).map Prod.snd).getD 0

/-- `install_copy_esp`; `true` for the result 0. -/
def installCopyEsp (devname : Bytes) (blockSize : Nat) : Prog (Blkio.machine fixed) Bool := do
  let devs ← Blkio.list
  if espBlocks devs = 0 then pure false
  else do
    let blocks := min (espBlocks devs) (espSizeBytes / ramBlockSize)
    let espStartLba := espAlignBytes / blockSize
    if ← copyToNative ramdisk1 blocks devname espStartLba blockSize then
      verifyToNative ramdisk1 blocks devname espStartLba blockSize
    else pure false

end Lorica.Impl.Install.Copy
