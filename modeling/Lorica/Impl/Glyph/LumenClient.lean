import Lorica.Framework.Stream

/-!
# libglyph: `lumen_client.c` and `lumen_proto.h`

A message of the compositor is a header, its opcode and the length of what follows, and a
payload. Numbers of 32 bits are natural numbers, read with the low byte first; signed ones stay
as they stand on the wire.
-/

namespace Lorica.Impl.Glyph

open Lorica.Stream

def le32 (bs : Bytes) (i : Nat) : Nat :=
  (bs.getD i 0).toNat + 2 ^ 8 * (bs.getD (i + 1) 0).toNat + 2 ^ 16 * (bs.getD (i + 2) 0).toNat +
    2 ^ 24 * (bs.getD (i + 3) 0).toNat

/-! ## Opcodes and structures -/

def lumenEvKey : Nat := 0x10
def lumenEvMouse : Nat := 0x11
def lumenEvCloseRequest : Nat := 0x12
def lumenEvFocus : Nat := 0x13
def lumenEvResized : Nat := 0x14
def lumenEvDragOver : Nat := 0x15
def lumenEvDragLeave : Nat := 0x16
def lumenEvDrop : Nat := 0x17
def lumenEvWindowList : Nat := 0x18

/-- The size of the structure that an opcode stands before. -/
def structSize (op : Nat) : Option Nat :=
  if op = lumenEvKey then some 16
  else if op = lumenEvMouse then some 16
  else if op = lumenEvCloseRequest then some 4
  else if op = lumenEvFocus then some 8
  else if op = lumenEvResized then some 12
  else if op = lumenEvDragOver then some 16
  else if op = lumenEvDragLeave then some 4
  else if op = lumenEvDrop then some 272
  else none

/-- The size of `lumen_window_info_t`. -/
def windowInfoSize : Nat := 72

/-- The union of `lumen_event_t`. -/
inductive Body
  | none
  | key (keycode modifiers : Nat) (pressed : UInt8)
  | mouse (x y : Nat) (buttons evtype scroll : UInt8)
  | focus (focused : UInt8)
  | resized (newW newH : Nat)
  | drag (x y : Nat) (op : UInt8)
  | drop (x y : Nat) (op : UInt8) (path : Bytes)
  | windows (items : List Bytes)
deriving DecidableEq

/-- `lumen_event_t`. -/
structure Event where
  type : Nat
  windowId : Nat
  body : Body
deriving DecidableEq

/-- The event of a structure. -/
def eventOf (op : Nat) (s : Bytes) : Event :=
  ⟨op, le32 s 0,
    if op = lumenEvKey then .key (le32 s 4) (le32 s 8) (s.getD 12 0)
    else if op = lumenEvMouse then .mouse (le32 s 4) (le32 s 8) (s.getD 12 0) (s.getD 13 0) (s.getD 14 0)
    else if op = lumenEvFocus then .focus (s.getD 4 0)
    else if op = lumenEvResized then .resized (le32 s 4) (le32 s 8)
    else if op = lumenEvDragOver then .drag (le32 s 4) (le32 s 8) (s.getD 12 0)
    else if op = lumenEvDrop then
      -- the last character of the path is overwritten
      .drop (le32 s 4) (le32 s 8) (s.getD 12 0) ((s.drop 16).take 255 ++ [0])
    else .none⟩

/-! ## Events -/

/-- The windows of a list, one after the other. -/
def recvWindows : Nat → Recv (List Bytes)
  | 0 => pure []
  | n + 1 => do
    let w ← readFull windowInfoSize
    let ws ← recvWindows n
    pure (w :: ws)

/-- `recv_event`. -/
def recvEvent : Recv Event := do
  let hdr ← readFull 8
  let op := le32 hdr 0
  let len := le32 hdr 4
  match structSize op with
  | some size => do
    let s ← readFull size
    pure (eventOf op s)
  | none =>
    if op = lumenEvWindowList then do
      let count := len / windowInfoSize
      let cap := if 16 < count then 16 else count
      let items ← recvWindows cap
      drain 256 (len - cap * windowInfoSize)
      pure ⟨op, 0, .windows items⟩
    else do
      drain 256 len
      pure ⟨0, 0, .none⟩

end Lorica.Impl.Glyph
