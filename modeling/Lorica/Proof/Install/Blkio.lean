import Lorica.Impl.Install.Blkio

/-!
# Programs on block devices

The rules of the calls, for every answer that a device can give: `BlkWP p log Q` says that whatever
the devices answer, `p` ends with a result and a log for which `Q` holds.
-/

namespace Lorica.Proof.Install

open Lorica.Impl.Install

variable {fixed : Bytes → Option Buf} {α : Type} {log : List Blkio.Event} {Q : α → List Blkio.Event → Prop}
  {dev : Bytes} {lba count : Nat}

/-- `WP` for programs on block devices. -/
abbrev BlkWP (p : Prog (Blkio.machine fixed) α) (log : List Blkio.Event) (Q : α → List Blkio.Event → Prop) : Prop :=
  WP (M := Blkio.machine fixed) (fun _ => True) p log Q fun _ _ => True

theorem BlkWP.exec {p : Prog (Blkio.machine fixed) α} (h : BlkWP p log Q) (σ : Nat → Blkio.Choice) :
    Q (p.exec σ log).1 (p.exec σ log).2 := WP.exec_done h fun _ => trivial

theorem BlkWP.list {f : List (Bytes × Nat) → Prog (Blkio.machine fixed) α}
    (h : ∀ devs, BlkWP (f devs) (log ++ [⟨.list, devs⟩]) Q) : BlkWP (Blkio.list >>= f) log Q :=
  ⟨trivial, fun c _ => h c.devs⟩

/-- A read fails, or gives the contents of a device that does not change, or anything. -/
theorem BlkWP.read {f : Option Buf → Prog (Blkio.machine fixed) α}
    (hnone : BlkWP (f none) (log ++ [⟨.read dev lba count, none⟩]) Q)
    (hsome : ∀ data : Buf, (∀ contents, fixed dev = some contents → data = fun i => contents (lba * ramBlockSize + i)) →
      BlkWP (f (some data)) (log ++ [⟨.read dev lba count, some data⟩]) Q) :
    BlkWP (Blkio.read dev lba count >>= f) log Q := by
  refine ⟨trivial, fun c _ => ?_⟩
  have hdata : ∀ contents, fixed dev = some contents →
      Blkio.readData fixed dev lba c = fun i => contents (lba * ramBlockSize + i) := by
    intro contents h
    rw [Blkio.readData, h]
  show BlkWP (f (if c.ok = true then some (Blkio.readData fixed dev lba c) else none))
    (log ++ [⟨.read dev lba count, if c.ok = true then some (Blkio.readData fixed dev lba c) else none⟩]) Q
  cases c.ok with
  | false => exact hnone
  | true => exact hsome _ hdata

theorem BlkWP.write {buf : Buf} {f : Bool → Prog (Blkio.machine fixed) α}
    (h : ∀ ok : Bool, BlkWP (f ok) (log ++ [⟨.write dev lba count buf, ok⟩]) Q) :
    BlkWP (Blkio.write dev lba count buf >>= f) log Q := ⟨trivial, fun c _ => h c.ok⟩

end Lorica.Proof.Install
