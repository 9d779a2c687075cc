import Lorica.Framework.LittleEndian

/-!
# libinstall: block devices

The machine of the programs that use whole block devices by name (`li_blkdev_list` and
`li_blkdev_io`). What a device answers is up to the environment, at each call anew: a write
is acknowledged or not, and a read gives whatever the device then returns. Only the devices
that `fixed` names have contents that do not change; these are the ramdisks, with blocks of
512 bytes.

The state is the log of the calls and their answers.
-/

namespace Lorica.Impl.Install

/-- `RAM_BLOCK_SIZE`. -/
def ramBlockSize : Nat := 512

namespace Blkio

inductive Op
  /-- `li_blkdev_list`: names and numbers of blocks; none when it fails. -/
  | list
  | read (dev : Bytes) (lba count : Nat)
  | write (dev : Bytes) (lba count : Nat) (buf : Buf)

def Op.Ret : Op → Type
  | .list => List (Bytes × Nat)
  | .read _ _ _ => Option Buf
  | .write _ _ _ _ => Bool

/-- One call and its answer. -/
structure Event where
  op : Op
  ret : op.Ret

/-- What the environment says to a call. -/
structure Choice where
  devs : List (Bytes × Nat)
  ok : Bool
  data : Buf

/-- What a read gives. -/
def readData (fixed : Bytes → Option Buf) (dev : Bytes) (lba : Nat) (c : Choice) : Buf :=
  match fixed dev with
  | some contents => fun i => contents (lba * ramBlockSize + i)
  | none => c.data

def answer (fixed : Bytes → Option Buf) : (o : Op) → Choice → o.Ret
  | .list, c => c.devs
  | .read dev lba _, c => if c.ok = true then some (readData fixed dev lba c) else none
  | .write _ _ _ _, c => c.ok

def step (fixed : Bytes → Option Buf) (o : Op) (c : Choice) (log : List Event) : o.Ret × List Event :=
  (answer fixed o c, log ++ [⟨o, answer fixed o c⟩])

abbrev machine (fixed : Bytes → Option Buf) : Machine :=
  ⟨List Event, Op, Op.Ret, Choice, step fixed, fun _ _ log => log⟩

variable {fixed : Bytes → Option Buf}

def list : Prog (machine fixed) (List (Bytes × Nat)) := Prog.call (M := machine fixed) .list

def read (dev : Bytes) (lba count : Nat) : Prog (machine fixed) (Option Buf) :=
  Prog.call (M := machine fixed) (.read dev lba count)

def write (dev : Bytes) (lba count : Nat) (buf : Buf) : Prog (machine fixed) Bool :=
  Prog.call (M := machine fixed) (.write dev lba count buf)

end Blkio

end Lorica.Impl.Install
