import Lorica.Proof.Install.Noted
import Lorica.Proof.Install.Repair

/-!
# The repair stays within bounds

`InBounds sectors p Q` is about a noted program, whatever the device answers to it, so that nothing is
assumed of what is on the disk. The bounds come from the checks of the superblock (`Sound`) and,
for the inode tables, from those of the group descriptors (`TablesIn`), and the variables that they are
about stay as they are (`SameSizes`, `Same`). The passes of the scan come to an end since each but the last leaves
fewer inodes unscanned (`Scanning`).
-/

namespace Lorica.Proof.Install

open Lorica.Impl.Install
open Try (always_bind always_throw)

variable {α β : Type} {sectors size o n : Nat}

/-- An operation on the first `sectors` sectors. -/
def InRange (sectors : Nat) : Disk.Op → Prop
  | .read off len => off + len ≤ sectors * 512
  | .write off len _ => off + len ≤ sectors * 512

theorem inRange_read {off len : Nat} : InRange sectors (.read off len) ↔ off + len ≤ sectors * 512 := Iff.rfl

variable {buf : Buf} {sector count : Nat}

theorem inRange_write {off len : Nat} : InRange sectors (.write off len buf) ↔ off + len ≤ sectors * 512 := Iff.rfl

/-- Whatever the device answers, the program stays in its sectors and what it notes holds; its result is
in `Q`. -/
abbrev InBounds (sectors : Nat) (p : Noted.Rep α) (Q : α → Prop) : Prop :=
  Try.Always (Prog.Noting (M := Disk.machine) (InRange sectors)) p Q

/-! ## Accesses and arithmetic -/

section

variable {P : Disk.Op → Prop} {f : Unit → Noted.Rep β} {p : Buf} {a b : Nat} {Q : β → Prop}

theorem note_touch (h : o + n - 1 < size) (hf : Try.Always (Prog.Noting P) (f ()) Q) :
    Try.Always (Prog.Noting P) (Noted.touch size o n >>= f) Q := Try.always_note_bind.mpr ⟨h, hf⟩

variable {f : Nat → Noted.Rep β}

theorem note_r16 (h : o + 2 ≤ size) (hf : Try.Always (Prog.Noting P) (f (r16 p o)) Q) :
    Try.Always (Prog.Noting P) (Noted.r16 size p o >>= f) Q := always_bind.mpr (note_touch (by omega) hf)

theorem note_r32 (h : o + 4 ≤ size) (hf : Try.Always (Prog.Noting P) (f (r32 p o)) Q) :
    Try.Always (Prog.Noting P) (Noted.r32 size p o >>= f) Q := always_bind.mpr (note_touch (by omega) hf)

/-- A bit of a map of `size` bytes. -/
theorem note_bit {f : Bool → Noted.Rep β} (h : o < size * 8) (hf : Try.Always (Prog.Noting P) (f (bit p o)) Q) :
    Try.Always (Prog.Noting P) (Noted.bit size p o >>= f) Q := always_bind.mpr (note_touch (by omega) hf)

theorem note_setbit {f : Buf → Noted.Rep β} (h : o < size * 8) (hf : Try.Always (Prog.Noting P) (f (setbit p o)) Q) :
    Try.Always (Prog.Noting P) (Noted.setbit size p o >>= f) Q := always_bind.mpr (note_touch (by omega) hf)

theorem mapSize_le (n : Nat) : n ≤ Noted.mapSize n * 8 := by
  unfold Noted.mapSize
  omega

theorem note_add32 (h : a + b < 2 ^ 32) (hf : Try.Always (Prog.Noting P) (f (a + b)) Q) :
    Try.Always (Prog.Noting P) (Noted.add32 a b >>= f) Q := always_bind.mpr (Try.Always.note h hf)

theorem note_mul32 (h : a * b < 2 ^ 32) (hf : Try.Always (Prog.Noting P) (f (a * b)) Q) :
    Try.Always (Prog.Noting P) (Noted.mul32 a b >>= f) Q := always_bind.mpr (Try.Always.note h hf)

theorem note_sub32 (h : b ≤ a) (hf : Try.Always (Prog.Noting P) (f (a - b)) Q) :
    Try.Always (Prog.Noting P) (Noted.sub32 a b >>= f) Q := always_bind.mpr (Try.Always.note h hf)

end

/-! ## Blocks -/

theorem sector_range (h : ¬ (sectors < sector ∨ sectors - sector < count)) :
    sector * 512 + count * 512 ≤ sectors * 512 := by
  rw [← Nat.add_mul]
  exact Nat.mul_le_mul_right 512 (by omega)

theorem rwRead_safe (hcount : 0 < count) (hsize : count * 512 ≤ size) :
    InBounds sectors (Noted.rwRead size sectors sector count) fun _ => True := by
  unfold Noted.rwRead
  split
  · exact always_throw
  · rename_i hin
    have hrange := inRange_read.mpr (sector_range hin)
    refine note_touch (by omega) (Try.always_dev_bind.mpr ⟨hrange, fun r => ?_⟩)
    cases r with
    | none => exact always_throw
    | some buf => trivial

theorem rwWrite_safe (hcount : 0 < count) (hsize : count * 512 ≤ size) :
    InBounds sectors (Noted.rwWrite size sectors sector count buf) fun _ => True := by
  unfold Noted.rwWrite
  split
  · exact always_throw
  · rename_i hin
    have hrange : InRange sectors (.write _ _ buf) := inRange_write.mpr (sector_range hin)
    refine note_touch (by omega) (Try.always_dev_bind.mpr ⟨hrange, fun r => ?_⟩)
    cases r with
    | false => exact always_throw
    | true => trivial

theorem writeCompared_safe (hcount : 0 < count) (hsize : count * 512 ≤ size)
    (hverify : count * 512 ≤ bs) :
    InBounds sectors (Noted.writeCompared size sectors sector count buf) fun _ => True := by
  refine (rwWrite_safe hcount hsize).bind fun _ _ => (rwRead_safe hcount hverify).bind fun _ _ => ?_
  split
  · trivial
  · exact always_throw

/-! ## The variables -/

/-- The numbers that the checks of the superblock let pass. -/
structure Sound (r : Repair) : Prop where
  geometry : validGeometry r.sectors r.geo
  groups : validGroups r.geo
  first : (r.groups - 1) * r.bpg < r.blocks
  blocks : r.blocks ≤ r.groups * r.bpg

theorem mul_bound {g a : Nat} (hg : g ≤ maxGroups) (ha : a ≤ bs * 8) : g * a ≤ 2 ^ 22 :=
  (Nat.mul_le_mul hg ha).trans (by decide)

theorem Sound.blocks_le {r : Repair} (h : Sound r) : r.blocks ≤ 2 ^ 22 :=
  h.blocks.trans (mul_bound h.groups.2.1 h.geometry.2.2.2.2.1)

theorem Sound.inodes_le {r : Repair} (h : Sound r) : r.inodes ≤ 2 ^ 22 :=
  h.groups.2.2.2.1.trans (mul_bound h.groups.2.1 h.geometry.2.2.2.2.2.1)

/-- The numbers are those of `r₀`. -/
structure SameSizes (r₀ r : Repair) : Prop where
  geometry : r.geo = r₀.geo
  sectors : r.sectors = r₀.sectors

/-- What the scan of an inode leaves as it is. -/
structure Same (r₀ r : Repair) : Prop extends SameSizes r₀ r where
  gdt : r.gdt = r₀.gdt
  scanned : r.scanned = r₀.scanned

section

variable {r₀ r : Repair}

theorem Same.refl : Same r r := ⟨⟨rfl, rfl⟩, rfl, rfl⟩

theorem readBlock_safe (hs : Sound r₀) (h : SameSizes r₀ r) (b : Nat) :
    InBounds r₀.sectors (Noted.readBlock r b) fun _ => True := by
  unfold Noted.readBlock
  have hblocks := hs.blocks_le
  rw [h.geometry, h.sectors]
  split
  · exact always_throw
  · refine Try.Always.note ?_ (rwRead_safe (by decide) (by decide))
    show b * spb < 2 ^ 64
    unfold spb
    omega

variable {b g n first i : Nat} {isDir repair : Bool} {s : Walk} {f : Fill} {refs : Buf}

theorem writeBlock_safe (h : SameSizes r₀ r) (hb : b < 2 ^ 32) (buf : Buf) :
    InBounds r₀.sectors (Noted.writeBlock r b buf) fun _ => True := by
  rw [Noted.writeBlock, h.sectors]
  refine Try.always_adapt.mpr (Try.Always.note ?_ (writeCompared_safe (by decide) (by decide) (by decide)))
  show b * spb < 2 ^ 64
  unfold spb
  omega

theorem markBlock_safe (h : Same r₀ r) (b : Nat) : InBounds r₀.sectors (Noted.markBlock b r) (Same r₀) := by
  unfold Noted.markBlock
  have hmap := mapSize_le r.blocks
  split
  · exact always_throw
  · refine note_bit (by omega) ?_
    split
    · exact always_throw
    · exact note_setbit (by omega) ⟨⟨h.geometry, h.sectors⟩, h.gdt, h.scanned⟩

/-! ## Metadata -/

/-- The inode tables are in the file system. -/
def TablesIn (r : Repair) : Prop := ∀ g < r.groups, inodeTable r.gdt g ≤ r.blocks

theorem desc_fits (hs : Sound r₀) (hg : g < r₀.groups) : g * descSize + descSize ≤ bs := by
  have hle : r₀.groups * descSize ≤ bs := hs.groups.2.2.1
  rw [← Nat.succ_mul]
  exact (Nat.mul_le_mul_right descSize hg).trans hle

/-- The first block of a group is one of the file system. -/
theorem start_lt (hs : Sound r₀) (hg : g < r₀.groups) : g * r₀.bpg < r₀.blocks :=
  (Nat.mul_le_mul_right r₀.bpg (Nat.le_sub_one_of_lt hg)).trans_lt hs.first

theorem markBlocks_safe (h : Same r₀ r) (n i : Nat) : InBounds r₀.sectors (Try.loop Noted.markBlock n i r) (Same r₀) :=
  Try.Always.loop (fun _ => Same r₀) h fun j _ _ _ hr => markBlock_safe hr j

theorem markGroup_safe (hs : Sound r₀) (h : Same r₀ r) (hg : g < r₀.groups) :
    InBounds r₀.sectors (Noted.markGroup g r) fun r => Same r₀ r ∧ inodeTable r₀.gdt g ≤ r₀.blocks := by
  have hstart := start_lt hs hg
  have hblocks := hs.blocks_le
  have hbpg : r₀.bpg ≤ 32768 := hs.geometry.2.2.2.2.1
  have hdesc : g * descSize + 32 ≤ bs := desc_fits hs hg
  unfold Noted.markGroup
  rw [h.geometry, h.gdt]
  refine note_mul32 (by omega) (always_bind.mpr (note_add32 (by omega) ?_))
  refine note_r32 (by omega) (note_r32 (by omega) (note_r32 (by omega) ?_))
  split
  · exact always_throw
  · refine note_sub32 (by omega) ?_
    split
    · exact always_throw
    · have htable : inodeTable r₀.gdt g ≤ r₀.blocks := by
        unfold inodeTable
        omega
      refine (markBlocks_safe h _ _).bind fun r1 h1 => ?_
      refine (markBlock_safe h1 _).bind fun r2 h2 => ?_
      refine (markBlock_safe h2 _).bind fun r3 h3 => ?_
      refine (Try.Always.loop (fun _ => Same r₀) h3 fun j hj hj' r4 h4 => ?_).mono fun _ h => ⟨h, htable⟩
      refine Try.Always.note ?_ (markBlock_safe h4 j)
      rw [h3.geometry] at hj'
      show j < 2 ^ 32
      omega

theorem markMetadata_safe (hs : Sound r₀) (h : Same r₀ r) :
    InBounds r₀.sectors (Noted.markMetadata r) fun r => Same r₀ r ∧ TablesIn r₀ := by
  unfold Noted.markMetadata
  rw [h.geometry]
  refine (Try.Always.loop (fun j r => Same r₀ r ∧ ∀ g < j, inodeTable r₀.gdt g ≤ r₀.blocks)
    ⟨h, fun g hg => absurd hg (Nat.not_lt_zero g)⟩ fun j _ hj r hr => ?_).mono fun r hr => ⟨hr.1, ?_⟩
  · refine (markGroup_safe hs hr.1 (by omega)).mono fun r' h' => ⟨h'.1, fun g hg => ?_⟩
    rcases Nat.lt_succ_iff_lt_or_eq.mp hg with hlt | rfl
    · exact hr.2 g hlt
    · exact h'.2
  · exact fun g hg => hr.2 g (by omega)

/-! ## Inodes -/

section

variable (hs : Sound r₀)

include hs

theorem group_lt {ino : Nat} (hino : ino ≠ 0) (hle : ino ≤ r₀.inodes) :
    (ino - 1) / r₀.ipg < r₀.groups := by
  have hinodes : r₀.inodes ≤ r₀.groups * r₀.ipg := hs.groups.2.2.2.1
  exact Nat.div_lt_of_lt_mul (by rw [Nat.mul_comm]; omega)

theorem readInode_safe (ht : TablesIn r₀) (h : Same r₀ r) (ino : Nat) :
    InBounds r₀.sectors (Noted.readInode ino r) fun r => Same r₀ r ∧ ino ≠ 0 ∧ ino ≤ r₀.inodes := by
  unfold Noted.readInode
  rw [h.geometry, h.gdt]
  split
  · exact always_throw
  · have hblocks := hs.blocks_le
    have hg : (ino - 1) / r₀.ipg < r₀.groups := group_lt hs (by omega) (by omega)
    have htable := ht _ hg
    have hdesc := desc_fits hs hg
    have hipg : r₀.ipg ≤ 32768 := hs.geometry.2.2.2.2.2.1
    have hidx : (ino - 1) % r₀.ipg < r₀.ipg := Nat.mod_lt _ hs.geometry.2.2.2.1
    have hsize : r₀.inodeSize ≤ 4096 := hs.geometry.2.2.2.2.2.2.2.1
    have hoff : (ino - 1) % r₀.ipg * r₀.inodeSize ≤ 32768 * 4096 := Nat.mul_le_mul (by omega) hsize
    have hdiv : (ino - 1) % r₀.ipg * r₀.inodeSize / bs ≤ 32768 := Nat.div_le_of_le_mul hoff
    unfold descSize at hdesc
    unfold inodeTable at htable
    refine note_r32 (by unfold descSize; omega) (note_mul32 (by omega) (note_add32 (by omega) ?_))
    split
    · exact always_throw
    · refine (readBlock_safe hs h.toSameSizes _).bind fun block _ => note_touch (by omega) ?_
      exact ⟨⟨⟨rfl, h.sectors⟩, rfl, h.scanned⟩, by omega, by omega⟩

theorem allocInode_safe (ht : TablesIn r₀) (h : Same r₀ r) (ino : Nat) :
    InBounds r₀.sectors (Noted.allocInode ino r) (Same r₀) := by
  refine (readInode_safe hs ht h ino).bind fun r1 h1 => note_r16 (by decide) ?_
  obtain ⟨h1, hino, hle⟩ := h1
  have hmap := mapSize_le r1.inodes
  rw [h1.geometry] at hmap
  split
  · exact always_throw
  · refine note_sub32 (by omega) (note_setbit (by rw [h1.geometry]; omega) ?_)
    exact ⟨⟨h1.geometry, h1.sectors⟩, h1.gdt, h1.scanned⟩

theorem dirEntry_safe (ht : TablesIn r₀) (h : Same r₀ r) (ino : Nat) :
    InBounds r₀.sectors (Noted.dirEntry ino r) (Same r₀) := by
  unfold Noted.dirEntry
  have hmap := mapSize_le r.inodes
  split
  · exact h
  · split
    · exact always_throw
    · refine note_sub32 (by omega) (note_bit (by omega) ?_)
      split
      · exact h
      · exact Try.always_adapt.mpr (allocInode_safe hs ht h ino)

theorem parseDirBlock_safe (ht : TablesIn r₀) (h : Same r₀ r) {off : Nat} (hn : bs ≤ off + 8 * n) :
    InBounds r₀.sectors (Noted.parseDirBlock n off r) (Same r₀) := by
  induction n generalizing off r with
  | zero =>
    rw [Noted.parseDirBlock, if_pos (by omega)]
    exact h
  | succ n ih =>
    unfold Noted.parseDirBlock
    split
    · exact h
    split
    · exact always_throw
    have hlen := r16_lt r.block (off + 4)
    have hbs : bs = 4096 := rfl
    refine note_r32 (by omega) (note_r16 (by omega) (note_touch (by omega) ?_))
    split
    · exact always_throw
    rename_i hwf
    have hrec := rec_ge ((Bool.not_eq_false _).mp hwf)
    refine note_add32 (by omega) ((dirEntry_safe hs ht h _).bind fun r1 h1 => ?_)
    exact ih h1 (by omega)

theorem dataBlock_safe (ht : TablesIn r₀) (h : Same r₀ s.r) :
    InBounds r₀.sectors (Noted.dataBlock isDir b s) fun s => Same r₀ s.r := by
  unfold Noted.dataBlock
  split
  · split
    · exact always_throw
    · exact h
  · refine (markBlock_safe h b).bind fun r1 h1 => ?_
    split
    · refine (readBlock_safe hs h1.toSameSizes b).bind fun block _ => ?_
      have hblock : Same r₀ { r1 with block := block, parsed := (b, r1.inodeAlloc) :: r1.parsed } :=
        ⟨⟨h1.geometry, h1.sectors⟩, h1.gdt, h1.scanned⟩
      exact (parseDirBlock_safe hs ht hblock (by decide)).bind fun r2 h2 => h2
    · exact h1

theorem indirect_safe (ht : TablesIn r₀) {depth : Nat} (h : Same r₀ s.r) :
    InBounds r₀.sectors (Noted.indirect isDir depth b s) fun s => Same r₀ s.r := by
  induction depth generalizing b s with
  | zero =>
    unfold Noted.indirect
    split
    · exact h
    · exact always_throw
  | succ depth ih =>
    unfold Noted.indirect
    split
    · exact h
    split
    · exact always_throw
    refine (markBlock_safe h b).bind fun r1 h1 => (readBlock_safe hs h1.toSameSizes b).bind fun pointers _ => ?_
    refine Try.Always.loop (fun _ (s : Walk) => Same r₀ s.r) h1 fun j _ hj s hs' => ?_
    refine note_r32 (by omega) ?_
    split
    · exact hs'
    split
    · exact dataBlock_safe hs ht hs'
    · exact ih hs'

theorem scanBlocks_safe (ht : TablesIn r₀) {inode : Buf} (h : Same r₀ s.r) :
    InBounds r₀.sectors (Noted.scanBlocks isDir inode s) (Same r₀) := by
  have hdirect : InBounds r₀.sectors (Try.loop (fun i s => do
      let b ← Noted.r32 Noted.inodeBytes inode (40 + i * 4)
      Noted.dataBlock isDir b s) 12 0 s) fun s => Same r₀ s.r := by
    refine Try.Always.loop (fun _ (s : Walk) => Same r₀ s.r) h fun j _ hj s hs' => ?_
    exact note_r32 (by unfold Noted.inodeBytes; omega) (dataBlock_safe hs ht hs')
  refine hdirect.bind fun s1 h1 => note_r32 (by decide) ((indirect_safe hs ht h1).bind fun s2 h2 => ?_)
  refine note_r32 (by decide) ((indirect_safe hs ht h2).bind fun s3 h3 => note_r32 (by decide) ?_)
  split
  · exact always_throw
  split
  · exact always_throw
  · exact h3

theorem scanInode_safe (ht : TablesIn r₀) (h : Same r₀ r) (ino : Nat) :
    InBounds r₀.sectors (Noted.scanInode ino r) (Same r₀) := by
  refine (readInode_safe hs ht h ino).bind fun r1 h1 => note_r16 (by decide) ?_
  obtain ⟨h1, hino, hle⟩ := h1
  split
  · split
    · exact h1
    · exact always_throw
  refine note_touch (by decide) ?_
  split
  · exact h1
  refine note_r32 (by decide) ?_
  split
  · have hg := group_lt hs hino hle
    have hgroups := hs.groups.2.1
    have hcount : Same r₀ (countDirectory ino r1) := ⟨⟨h1.geometry, h1.sectors⟩, h1.gdt, h1.scanned⟩
    refine always_bind.mpr (Try.Always.note ?_ (scanBlocks_safe hs ht hcount))
    rw [h1.geometry]
    exact hg.trans_le hgroups
  · exact scanBlocks_safe hs ht h1

end

theorem copyBit_safe {block m : Buf} (hi : i < bs * 8) (hin : first + i < n) (hn : n ≤ 2 ^ 22) :
    InBounds r₀.sectors (Noted.copyBit (Noted.mapSize n) block first i m) fun _ => True := by
  have hmap := mapSize_le n
  refine note_bit hi ?_
  split
  · exact note_add32 (by omega) (note_touch (by omega) trivial)
  · trivial

theorem groupInodes_in (hs : Sound r₀) (hg : g < r₀.groups) :
    g * r₀.ipg < r₀.inodes ∧ min (r₀.inodes - g * r₀.ipg) r₀.ipg ≤ bs * 8 := by
  have hipg : r₀.ipg ≤ bs * 8 := hs.geometry.2.2.2.2.2.1
  have hlast : (r₀.groups - 1) * r₀.ipg < r₀.inodes := hs.groups.2.2.2.2
  exact ⟨(Nat.mul_le_mul_right r₀.ipg (Nat.le_sub_one_of_lt hg)).trans_lt hlast, (min_le_right _ _).trans hipg⟩

theorem loadInodeMap_safe (hs : Sound r₀) (h : Same r₀ r) (hg : g < r₀.groups) :
    InBounds r₀.sectors (Noted.loadInodeMap g r) (Same r₀) := by
  have hinodes := hs.inodes_le
  have hdesc : g * descSize + 32 ≤ bs := desc_fits hs hg
  obtain ⟨hfirst, hcount⟩ := groupInodes_in hs hg
  unfold Noted.loadInodeMap
  rw [h.geometry, h.gdt]
  refine note_r32 (by omega) (note_mul32 (by omega) (note_sub32 (by omega) ?_))
  refine (readBlock_safe hs h.toSameSizes _).bind fun block _ => ?_
  refine Try.Always.bind (Q := fun _ => True) ?_ fun alloc _ => ⟨⟨rfl, h.sectors⟩, rfl, h.scanned⟩
  exact Try.Always.loop (fun _ _ => True) trivial fun j _ hj m _ => copyBit_safe (by omega) (by omega) hinodes

theorem loadInodeMaps_safe (hs : Sound r₀) (h : Same r₀ r) : InBounds r₀.sectors (Noted.loadInodeMaps r) (Same r₀) := by
  unfold Noted.loadInodeMaps
  rw [h.geometry]
  exact Try.Always.loop (fun _ => Same r₀) h fun j _ hj r hr => loadInodeMap_safe hs hr (by omega)

/-! ## The scan -/

/-- The variables between the inodes: all but `scanned` is as in `r₀`. -/
def SameButScanned (r₀ r : Repair) : Prop := Same { r₀ with scanned := r.scanned } r

/-- In the middle of a pass that has started with `r`. -/
structure Scanning (r₀ r : Repair) (s : Pass) : Prop where
  same : SameButScanned r₀ s.r
  quiet : s.progress = false → s.r = r
  fewer : s.progress = true → unscanned s.r < unscanned r

theorem scanNext_safe (hs : Sound r₀) (ht : TablesIn r₀) {s : Pass} (h : Scanning r₀ r s) (hi : i < r₀.inodes) :
    InBounds r₀.sectors (Noted.scanNext i s) (Scanning r₀ r) := by
  have hinodes := hs.inodes_le
  have hmap := mapSize_le r₀.inodes
  have hsize : s.r.inodes = r₀.inodes := congrArg Geometry.inodes h.same.geometry
  unfold Noted.scanNext
  rw [hsize]
  refine note_bit (by omega) (note_bit (by omega) ?_)
  split
  · exact h
  rename_i hnew
  rw [not_or, Bool.not_eq_true] at hnew
  refine note_setbit (by omega) (note_add32 (by omega) ?_)
  -- the scan of the inode keeps the map in which the inode has just been marked
  have hmarked : Same { r₀ with scanned := setbit s.r.scanned i } { s.r with scanned := setbit s.r.scanned i } :=
    ⟨⟨h.same.geometry, h.same.sectors⟩, h.same.gdt, rfl⟩
  have hsound : Sound { r₀ with scanned := setbit s.r.scanned i } := ⟨hs.geometry, hs.groups, hs.first, hs.blocks⟩
  refine (scanInode_safe hsound ht hmarked (i + 1)).bind fun r1 h1 => ?_
  have hlt : unscanned r1 < unscanned s.r :=
    unscanned_lt (congrArg Geometry.inodes (h1.geometry.trans h.same.geometry.symm)) (hsize ▸ hi) hnew.2 h1.scanned
  refine ⟨⟨⟨h1.geometry, h1.sectors⟩, h1.gdt, rfl⟩, fun hq => absurd hq.symm Bool.false_ne_true,
    fun _ => ?_⟩
  cases hp : s.progress with
  | false => exact h.quiet hp ▸ hlt
  | true => exact hlt.trans (h.fewer hp)

theorem scanPasses_safe (hs : Sound r₀) (ht : TablesIn r₀) (h : SameButScanned r₀ r) (hn : unscanned r < n) :
    InBounds r₀.sectors (Noted.scanPasses n r) (SameButScanned r₀) := by
  induction n generalizing r with
  | zero => exact absurd hn (Nat.not_lt_zero _)
  | succ n ih =>
    have hsize : r.inodes = r₀.inodes := congrArg Geometry.inodes h.geometry
    have hpass : InBounds r₀.sectors (Try.loop Noted.scanNext r.inodes 0 ⟨r, false⟩) (Scanning r₀ r) :=
      Try.Always.loop (fun _ => Scanning r₀ r) ⟨h, fun _ => rfl, fun hp => absurd hp Bool.false_ne_true⟩
        fun j _ hj s hs' => scanNext_safe hs ht hs' (by omega)
    refine hpass.bind fun s hs' => ?_
    split
    · rename_i hprog
      exact ih hs'.same (by have := hs'.fewer hprog; omega)
    · exact hs'.same

theorem scanAll_safe (hs : Sound r₀) (ht : TablesIn r₀) (h : Same r₀ r) :
    InBounds r₀.sectors (Noted.scanAll r) (SameSizes r₀) := by
  have hle : unscanned r < r.inodes + 1 := by
    refine Nat.lt_succ_of_le ((Finset.card_filter_le _ _).trans ?_)
    rw [Finset.card_range]
  have hscan : SameButScanned r₀ r := ⟨⟨h.geometry, h.sectors⟩, h.gdt, rfl⟩
  exact (scanPasses_safe hs ht hscan hle).mono fun r' h' => ⟨h'.geometry, h'.sectors⟩

/-! ## Bitmaps and counters -/

theorem countBit_free : (countBit i f).free ≤ f.free + 1 := by
  unfold countBit
  split
  · exact le_rfl
  · exact Nat.le_succ _

theorem fillBit_free : (fillBit refs first i f).free = f.free := by
  unfold fillBit
  split <;> rfl

theorem fillRound_safe (hi : i < bs * 8) (hin : first + i < n) (hn : n ≤ 2 ^ 22) (hf : f.free ≤ i) :
    InBounds r₀.sectors (Noted.fillRound (Noted.mapSize n) refs first i f) fun f => f.free ≤ i + 1 := by
  have hmap := mapSize_le n
  refine note_add32 (by omega) (note_bit (by omega) (note_bit hi (note_bit hi ?_)))
  have hfree := countBit_free (i := i) (f := fillBit refs first i f)
  rw [fillBit_free] at hfree
  exact hfree.trans (by omega)

/-- A bitmap of `n` bits, for which there are bits from `first` on in a map of `total`. -/
theorem reconcileMap_safe (hs : Sound r₀) (h : SameSizes r₀ r) {total : Nat}
    (hb : b < 2 ^ 32) (hn : n ≤ bs * 8) (hin : first + n ≤ total) (htotal : total ≤ 2 ^ 22) :
    InBounds r₀.sectors (Noted.reconcileMap repair r b (Noted.mapSize total) refs first n) fun f => f.free ≤ n := by
  refine (readBlock_safe hs h b).bind fun block _ => ?_
  have hfill : InBounds r₀.sectors (Try.loop (Noted.fillRound (Noted.mapSize total) refs first) n 0 ⟨block, 0, 0⟩)
      fun f => f.free ≤ 0 + n :=
    Try.Always.loop (fun j (f : Fill) => f.free ≤ j) le_rfl fun j _ hj f hf =>
      fillRound_safe (by omega) (by omega) htotal hf
  refine hfill.bind fun f hf => ?_
  rw [Nat.zero_add] at hf
  split
  · exact (writeBlock_safe h hb f.map).bind fun _ _ => hf
  · exact hf

/-- The totals after `j` groups. -/
structure Counted (r₀ : Repair) (j : Nat) (s : Totals) : Prop where
  sizes : SameSizes r₀ s.r
  blocks : s.freeBlocks ≤ min (j * r₀.bpg) r₀.blocks
  inodes : s.freeInodes ≤ min (j * r₀.ipg) r₀.inodes

theorem reconcileGroup_safe (hs : Sound r₀) {s : Totals} (h : Counted r₀ g s)
    (hg : g < r₀.groups) : InBounds r₀.sectors (Noted.reconcileGroup repair g s) (Counted r₀ (g + 1)) := by
  have hstart := start_lt hs hg
  have hblocks := hs.blocks_le
  have hinodes := hs.inodes_le
  have hbpg : r₀.bpg ≤ bs * 8 := hs.geometry.2.2.2.2.1
  have hbs : bs = 4096 := rfl
  have hdesc : g * descSize + 32 ≤ bs := desc_fits hs hg
  have hmax : r₀.groups ≤ maxGroups := hs.groups.2.1
  have hfreeB := h.blocks
  have hfreeI := h.inodes
  obtain ⟨hfirst, hcount⟩ := groupInodes_in hs hg
  unfold Noted.reconcileGroup
  dsimp only
  rw [h.sizes.geometry]
  refine note_r32 (by omega) (note_r32 (by omega) (note_mul32 (by omega) (always_bind.mpr (note_add32 (by omega) ?_))))
  refine note_sub32 (by omega) (note_mul32 (by omega) (note_sub32 (by omega) ?_))
  refine (reconcileMap_safe hs h.sizes (r32_lt _ _) (by omega) (by omega) hblocks).bind fun fb hfb => ?_
  refine (reconcileMap_safe hs h.sizes (r32_lt _ _) hcount (by omega) hinodes).bind fun fi hfi => ?_
  have hword : fb.free < 2 ^ 16 ∧ fi.free < 2 ^ 16 ∧ s.freeBlocks + fb.free < 2 ^ 32 ∧
      s.freeInodes + fi.free < 2 ^ 32 := by
    omega
  refine note_touch (by omega)
    (Try.Always.note (hg.trans_le hmax) (Try.Always.note hword.1 (Try.Always.note hword.2.1 ?_)))
  refine Try.Always.note hword.2.2.1 (Try.Always.note hword.2.2.2 ?_)
  have hlike : Like s.r (countGroup repair g fb fi s).r := (Like.refl s.r).countGroup
  refine ⟨⟨hlike.geometry.trans h.sizes.geometry, hlike.sectors.trans h.sizes.sectors⟩, ?_, ?_⟩
  · rw [countGroup_free.1, Nat.succ_mul]
    omega
  · rw [countGroup_free.2, Nat.succ_mul]
    omega

theorem reconcile_safe (hs : Sound r₀) (h : SameSizes r₀ r) :
    InBounds r₀.sectors (Noted.reconcile repair r) (Counted r₀ r₀.groups) := by
  have hstart : Counted r₀ 0 ⟨r, 0, 0⟩ := ⟨h, Nat.zero_le _, Nat.zero_le _⟩
  have hloop : InBounds r₀.sectors (Try.loop (Noted.reconcileGroup repair) r₀.groups 0 ⟨r, 0, 0⟩)
      (Counted r₀ (0 + r₀.groups)) :=
    Try.Always.loop (Counted r₀) hstart fun j _ hj s hs' => reconcileGroup_safe hs hs' (by omega)
  rw [Nat.zero_add] at hloop
  unfold Noted.reconcile
  rw [h.geometry]
  exact hloop

/-! ## The repair -/

/-- The last group has a block. -/
theorem first_lt {sb : Buf} (hblocks : 0 < (geometry sb).blocks) (hgroups : 0 < (geometry sb).groups) :
    ((geometry sb).groups - 1) * (geometry sb).bpg < (geometry sb).blocks := by
  have hle : (geometry sb).groups * (geometry sb).bpg ≤ (geometry sb).blocks + (geometry sb).bpg - 1 :=
    (Nat.div_mul_le_self _ _).trans (Nat.mod_le _ _)
  obtain ⟨n, hn⟩ := Nat.exists_eq_add_one.mpr hgroups
  rw [hn, Nat.succ_mul] at hle
  rw [hn, Nat.add_sub_cancel]
  omega

theorem openGeometry_safe (sb : Buf) (hr : r.geo = geometry sb) (hsectors : r.sectors = sectors) :
    InBounds sectors (Noted.openGeometry r) fun r' => Sound r' ∧ r'.sectors = sectors := by
  subst hsectors
  have hlt : r.blocks < 2 ^ 32 := by
    rw [hr]
    exact r32_lt sb 4
  refine Try.Always.note ?_ ?_
  · show r.blocks * spb < 2 ^ 64
    unfold spb
    omega
  split
  swap
  · exact always_throw
  rename_i hgeo
  have hbs : bs = 4096 := rfl
  have hbpg : r.bpg ≤ bs * 8 := hgeo.2.2.2.2.1
  have hipg : r.ipg ≤ bs * 8 := hgeo.2.2.2.2.2.1
  have hsize : r.inodeSize ≤ bs := hgeo.2.2.2.2.2.2.2.1
  have hproduct : r.ipg * r.inodeSize ≤ 32768 * 4096 := Nat.mul_le_mul hipg hsize
  refine Try.Always.note ?_ ?_
  · show r.ipg * r.inodeSize + bs - 1 < 2 ^ 32
    omega
  split
  swap
  · exact always_throw
  rename_i hgroups
  have htotal := mul_bound hgroups.2 hipg
  refine Try.Always.note ?_ ?_
  · show r.groups * r.ipg < 2 ^ 32
    omega
  split
  swap
  · exact always_throw
  rename_i hvalid
  have hblocks : r.blocks ≤ r.groups * r.bpg := by
    rw [hr] at hgeo hgroups ⊢
    exact blocks_le hgeo.2.2.1 hgroups.1
  have hfirst : (r.groups - 1) * r.bpg < r.blocks := by
    rw [hr] at hgeo hgroups ⊢
    exact first_lt hgeo.1 hgroups.1
  have hs : Sound r := ⟨hgeo, hvalid, hfirst, hblocks⟩
  have hle := hs.blocks_le
  have hle' := hs.inodes_le
  refine Try.Always.note ?_ (Try.Always.note ?_ (Try.Always.note ?_ ?_))
  · show r.blocks + r.bpg - 1 < 2 ^ 32
    omega
  · show r.blocks + 7 < 2 ^ 32
    omega
  · show r.inodes + 7 < 2 ^ 32
    omega
  refine (Try.always_adapt.mpr (readBlock_safe hs ⟨rfl, rfl⟩ 1)).bind fun gdt _ => ?_
  exact ⟨⟨hgeo, hvalid, hfirst, hblocks⟩, rfl⟩

theorem openFs_safe (sectors : Nat) : InBounds sectors (Noted.openFs sectors) fun r => Sound r ∧
    r.sectors = sectors := by
  refine (Try.always_adapt.mpr (rwRead_safe (by decide) (by decide))).bind fun sb _ => note_touch (by decide) ?_
  split
  · have hr : (⟨geometry sb, sectors, sb, fun _ => 0, fun _ => 0, fun _ => 0, fun _ => 0, fun _ => 0, 0, 0, 0, 0,
        fun _ => 0, []⟩ : Repair).geo = geometry sb := rfl
    exact openGeometry_safe sb hr rfl
  · exact always_throw

theorem countSuper_counted {j : Nat} {s : Totals} (h : Counted r₀ j s) : Counted r₀ j (countSuper s) := by
  unfold countSuper
  split
  · exact ⟨⟨h.sizes.geometry, h.sizes.sectors⟩, h.blocks, h.inodes⟩
  · exact h

/-- The end of the check, or of the repair. -/
def Complete (sectors : Nat) (s : Totals) : Prop := ∃ r₀, Sound r₀ ∧ r₀.sectors = sectors ∧ Counted r₀ r₀.groups s

theorem check_safe (sectors : Nat) : InBounds sectors (Noted.check sectors) (Complete sectors) := by
  refine (openFs_safe sectors).bind fun r₀ h0 => ?_
  obtain ⟨hs, rfl⟩ := h0
  refine (markMetadata_safe hs .refl).bind fun r1 h1 => ?_
  refine (loadInodeMaps_safe hs h1.1).bind fun r2 h2 => ?_
  refine (scanAll_safe hs h1.2 h2).bind fun r3 h3 => ?_
  refine (reconcile_safe hs h3).bind fun s h4 => note_touch (by decide) (note_touch (by decide) ?_)
  exact ⟨r₀, hs, rfl, countSuper_counted h4⟩

theorem writeSuper_safe (h : SameSizes r₀ r) (error : String) :
    InBounds r₀.sectors (Noted.writeSuper error r) fun _ => True := by
  rw [Noted.writeSuper, h.sectors]
  exact Try.always_adapt.mpr (writeCompared_safe (by decide) (by decide) (by decide))

theorem repairMaps_safe (hs : Sound r₀) (h : SameSizes r₀ r) :
    InBounds r₀.sectors (Noted.repairMaps r) (Counted r₀ r₀.groups) := by
  have hreset : SameSizes r₀ { r with missingBlocks := 0, counterMismatches := 0 } := ⟨h.geometry, h.sectors⟩
  refine (reconcile_safe hs hreset).bind fun s hs' => ?_
  refine always_bind.mpr (note_touch (by decide) (note_touch (by decide) ?_))
  have hc := countSuper_counted hs'
  refine (writeBlock_safe hc.sizes (by decide) _).bind fun _ _ => always_bind.mpr (note_touch (by decide) ?_)
  refine note_touch (by decide) (note_touch (by decide) ?_)
  have hf : Counted r₀ r₀.groups (finishSuper (countSuper s)) :=
    ⟨⟨hc.sizes.geometry, hc.sizes.sectors⟩, hc.blocks, hc.inodes⟩
  exact (writeSuper_safe hf.sizes _).bind fun _ _ => hf

theorem applyRepair_safe (hs : Sound r₀) (h : SameSizes r₀ r) :
    InBounds r₀.sectors (Noted.applyRepair r) (Counted r₀ r₀.groups) := by
  have hmarked : SameSizes r₀ (markInvalid r) := ⟨h.geometry, h.sectors⟩
  refine always_bind.mpr (note_touch (by decide) ?_)
  exact (writeSuper_safe hmarked _).bind fun _ _ => repairMaps_safe hs hmarked

theorem ext2Repair_safe (sectors : Nat) (repair : Bool) :
    InBounds sectors (Noted.ext2Repair sectors repair) fun res => Complete sectors res.2 := by
  refine (check_safe sectors).bind fun s hc => ?_
  obtain ⟨r₀, hs, rfl, hcounted⟩ := hc
  unfold Noted.repairFound
  split
  · exact (applyRepair_safe hs hcounted.sizes).bind fun s' h' => ⟨r₀, hs, rfl, h'⟩
  · exact ⟨r₀, hs, rfl, hcounted⟩

/-- On every device, whatever its size and whatever it answers, `ext2_repair` makes no access outside its
buffers, maps and arrays and none beyond the given sectors, none of its numbers wraps around, and
its loops end. -/
theorem repair_in_bounds (sectors : Nat) (repair : Bool) : Try.erase (Noted.repairReport sectors repair) =
      (ext2Repair sectors repair >>= fun res => Pure.pure (report res)) ∧
    InBounds sectors (Noted.repairReport sectors repair) fun _ => True := by
  refine ⟨erase_repairReport sectors repair, (ext2Repair_safe sectors repair).bind fun res hc => ?_⟩
  obtain ⟨r₀, hs, rfl, hcounted⟩ := hc
  have hblocks : res.2.r.blocks = r₀.blocks := congrArg Geometry.blocks hcounted.sizes.geometry
  have hinodes : res.2.r.inodes = r₀.inodes := congrArg Geometry.inodes hcounted.sizes.geometry
  refine Try.Always.note ?_ (Try.Always.note ?_ trivial)
  · exact hblocks ▸ hcounted.blocks.trans (min_le_right _ _)
  · exact hinodes ▸ hcounted.inodes.trans (min_le_right _ _)

end

end Lorica.Proof.Install
