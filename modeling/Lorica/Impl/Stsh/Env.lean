import Lorica.Framework.CString

/-!
# The variables of stsh: `env.c`

`s_env_store` has 64 slots of 256 bytes, of which `s_env_count` are in use, each with a text
`KEY=VALUE`. The pointers for `execve` go along with the slots and are left out, as is the
message that no slot is free.
-/

namespace Lorica.Impl.Stsh

open List

def envMax : Nat := 64

def slotSize : Nat := 256

def equals : UInt8 := 61

/-- What a slot holds: a C string that fits. -/
structure Slot where
  text : Bytes
  no_nul : (0 : UInt8) ∉ text
  fits : text.length < slotSize
deriving DecidableEq

/-- A string copied into a slot, as far as it fits. -/
def Slot.copy (s : Bytes) : Slot where
  text := (cstr s).take (slotSize - 1)
  no_nul h := by simpa using mem_takeWhile_imp (mem_of_mem_take h)
  fits := Nat.lt_of_le_of_lt (length_take_le _ _) (by decide)

/-- The test of every loop of `env.c`: the slot begins with the key and an equals sign. -/
def Slot.holds (key : Bytes) (s : Slot) : Bool := s.text.take key.length = key && s.text[key.length]? = some equals

structure Env where
  slots : List Slot
  count_le : slots.length ≤ envMax
deriving DecidableEq

namespace Env

/-- `env_init`. -/
def init (envp : List Bytes) : Env where
  slots := (envp.take envMax).map Slot.copy
  count_le := by rw [length_map]; exact length_take_le _ _

/-- `env_get`. -/
def get (key : Bytes) (e : Env) : Option Bytes :=
  (e.slots.find? (Slot.holds key)).map fun s => s.text.drop (key.length + 1)

/-- `env_set`. -/
def set (key value : Bytes) (e : Env) : Env :=
  let s := Slot.copy (key ++ equals :: value)
  let i := e.slots.findIdx (Slot.holds key)
  if i < e.slots.length then ⟨e.slots.set i s, by rw [length_set]; exact e.count_le⟩
  else if h : e.slots.length < envMax then ⟨e.slots ++ [s], by rw [length_append]; exact h⟩
  else e

end Env

end Lorica.Impl.Stsh
