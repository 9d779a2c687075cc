import Lorica.Proof.Install.Clean

/-!
# ext2_repair: a second run

After a repair the image is clean if the directories that were scanned are good all through,
and not only up to an entry for a missing inode, where the walk over a block leaves it. If
the rest of each block was sound when it was walked over (`Orderly`), a second run finds
nothing to do (`repair_once`).
-/

namespace Lorica.Proof.Install

open Lorica.Impl.Install Disk

variable {d d' : Disk} {sectors : Nat}

/-- The blocks that were walked over as directories, each with the map before: what follows
an entry for an inode without a bit in it is sound. -/
def Orderly (d : Disk) (parsed : List (Nat × Buf)) : Prop := ∀ x ∈ parsed, SoundRest d x.2 x.1

theorem Checked.goodDirs {s : Totals} {order : List Nat} (h : Checked d sectors s) (hscan : Scanned d s.r order)
    (hord : Orderly d s.r.parsed) : GoodDirs d s.r order := by
  intro i hi hdir p hp off hoff
  rw [← h.inodeOn_eq] at hdir hp
  have hin : InScope s.r.geo (i + 1) (inodeAt d s.r.geo s.r.gdt (i + 1)) := by
    rw [← h.inodeOn_eq]
    exact hdir.1
  obtain ⟨hwf, hname⟩ := entry_checked h hscan hi hin hdir.2 hp (fun alloc => hord (p, alloc)) hoff
  exact ⟨hwf, or_iff_not_imp_left.mpr hname⟩

theorem Mended.seen {s : Totals} {order : List Nat} (h : Checked d sectors s) (hscan : Scanned d s.r order)
    (habove : AboveGdt s.r.gdt) (hm : Mended d s.r d') : Seen d s.r order d' :=
  ⟨fun i hi => inodeAt_eq h hscan habove hm (hscan.lt i hi),
    fun _ hi _ hb => (blockAt_reached h hscan habove hm hi hb).1⟩

end Lorica.Proof.Install
