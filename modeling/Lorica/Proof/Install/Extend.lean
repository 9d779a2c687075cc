import Lorica.Proof.Install.Clean

/-!
# A larger file system

What it takes for a file system of one group to stay clean when groups are added to it. On
the larger image group 0 has the bitmaps, the inodes and the blocks of files that it had,
and the new groups have their metadata in front, no inodes, and bitmaps that say so
(`Extended`). A file system that was not made larger but written to elsewhere is the case
without new groups.
-/

namespace Lorica.Proof.Install

open Lorica.Impl.Install Disk List

variable {d d' : Disk} {sectors g i b : Nat}

/-- Two inodes are the same where they are looked at. -/
def SameInode (inode inode' : Buf) : Prop := ∀ k < 128, inode' k = inode k

section

variable {inode inode' : Buf} (h : SameInode inode inode')

include h

theorem SameInode.r32_eq {o : Nat} (ho : o + 4 ≤ 128) : r32 inode' o = r32 inode o :=
  r32_congr fun i hi => h _ (by omega)

theorem SameInode.mode_eq : modeOf inode' = modeOf inode := by
  rw [modeOf, modeOf, r16_congr (h 0 (by decide)) (h 1 (by decide))]

theorem SameInode.skips_eq (firstIno ino : Nat) : skipsInode firstIno ino inode' = skipsInode firstIno ino inode := by
  have hmode : r16 inode' 0 = r16 inode 0 := r16_congr (h 0 (by decide)) (h 1 (by decide))
  rw [skipsInode, skipsInode, hmode, h.r32_eq (by decide)]

theorem SameInode.blocks_eq (d : Disk) : blocksOf d inode' = blocksOf d inode ∧
    fileBlocks d inode' = fileBlocks d inode := by
  have hdirect : ∀ i ∈ range 12, r32 inode' (40 + i * 4) = r32 inode (40 + i * 4) := fun i hi => by
    have := mem_range.mp hi
    exact h.r32_eq (by omega)
  rw [blocksOf, blocksOf, fileBlocks, fileBlocks, h.r32_eq (by decide), h.r32_eq (by decide)]
  constructor
  · rw [flatMap_congr fun i hi => by rw [hdirect i hi]]
  · rw [flatMap_congr fun i hi => by rw [hdirect i hi]]

theorem SameInode.directBlocks_eq {n : Nat} (hn : n ≤ 12) : directBlocks inode' n = directBlocks inode n := by
  refine map_congr_left fun i hi => ?_
  have := mem_range.mp hi
  exact h.r32_eq (by omega)

end

/-- A group that was added: its bitmaps and its inode table follow each other, what is before
them and these are in use, and no inode is. -/
structure NewGroup (d : Disk) (g : Nat) : Prop where
  placed : Placed (geometry d.sb) (blockAt d 1) g
  maps : inodeBitmap (blockAt d 1) g = blockBitmap (blockAt d 1) g + 1
  table : inodeTable (blockAt d 1) g = blockBitmap (blockAt d 1) g + 2
  marked : ∀ k, groupStart (geometry d.sb) g + k <
    blockBitmap (blockAt d 1) g + 2 + (geometry d.sb).inodeTableBlocks →
      bit (blockAt d (blockBitmap (blockAt d 1) g)) k = true
  free : ∀ k < (geometry d.sb).ipg, bit (blockAt d (inodeBitmap (blockAt d 1) g)) k = false

/-- On `d'` the file system of `d`, which has one group, has more groups, or none more. An
inode may have changed if it is a reserved one. -/
structure Extended (sectors : Nat) (d d' : Disk) : Prop where
  supported : supported d'.sb
  state : StateClean d'.sb
  bpg : (geometry d'.sb).bpg = (geometry d.sb).bpg
  ipg : (geometry d'.sb).ipg = (geometry d.sb).ipg
  inodeSize : (geometry d'.sb).inodeSize = (geometry d.sb).inodeSize
  firstIno : (geometry d'.sb).firstIno = (geometry d.sb).firstIno
  blocks : (geometry d.sb).blocks ≤ (geometry d'.sb).blocks
  device : (geometry d'.sb).blocks * spb ≤ sectors
  groups : 0 < (geometry d'.sb).groups ∧ (geometry d'.sb).groups ≤ maxGroups
  inodes : (geometry d'.sb).inodes = (geometry d'.sb).groups * (geometry d.sb).ipg
  blockBitmap : blockBitmap (blockAt d' 1) 0 = blockBitmap (blockAt d 1) 0
  inodeBitmap : inodeBitmap (blockAt d' 1) 0 = inodeBitmap (blockAt d 1) 0
  inodeTable : inodeTable (blockAt d' 1) 0 = inodeTable (blockAt d 1) 0
  map : ∀ k < (geometry d.sb).blocks,
    bit (blockAt d' (Impl.Install.blockBitmap (blockAt d 1) 0)) k =
      bit (blockAt d (Impl.Install.blockBitmap (blockAt d 1) 0)) k
  inodeMap : ∀ k < (geometry d.sb).ipg,
    bit (blockAt d' (Impl.Install.inodeBitmap (blockAt d 1) 0)) k =
      bit (blockAt d (Impl.Install.inodeBitmap (blockAt d 1) 0)) k
  inode : ∀ i < (geometry d.sb).ipg, SameInode (inodeOn d i) (inodeOn d' i) ∨
    modeOf (inodeOn d' i) = modeOf (inodeOn d i) ∧ i + 1 < (geometry d.sb).firstIno ∧ i + 1 ≠ 2
  block : ∀ i, AllocatedOn d i → ∀ b ∈ reached d (geometry d.sb) (blockAt d 1) (i + 1),
    blockAt d' b = blockAt d b
  new : ∀ g, 0 < g → g < (geometry d'.sb).groups → NewGroup d' g
  counters : ∀ g < (geometry d'.sb).groups,
    Counters (blockAt d' 1) g (zeroBlocks d' g) (zeroInodes d' g) (if g = 0 then dirsIn d 0 else 0)
  super : r32 d'.sb 12 = ∑ g ∈ Finset.range (geometry d'.sb).groups, zeroBlocks d' g ∧
    r32 d'.sb 16 = ∑ g ∈ Finset.range (geometry d'.sb).groups, zeroInodes d' g

theorem reserved_skips {geo : Geometry} {ino : Nat} {inode : Buf} (h : ino < geo.firstIno) (h' : ino ≠ 2) :
    ¬ InScope geo ino inode := by
  intro hin
  have hskip : skipsInode geo.firstIno ino inode = true := by simp [skipsInode, h, h']
  exact Bool.false_ne_true (hin.2.symm.trans hskip)

section

variable (hc : CleanFs sectors d)

include hc

theorem CleanFs.ipg_pos : 0 < (geometry d.sb).ipg := hc.valid.2.2.2.1

theorem CleanFs.bpg_pos : 0 < (geometry d.sb).bpg := hc.valid.2.2.1

theorem CleanFs.blocks_le_bpg (hone : (geometry d.sb).groups = 1) :
    (geometry d.sb).blocks ≤ (geometry d.sb).bpg := by
  have hle := blocks_le hc.bpg_pos hc.groups.1
  rwa [hone, Nat.one_mul] at hle

end

/-! ## Inodes -/

section

variable (h : Extended sectors d d')

include h

theorem Extended.tableBlocks :
    (geometry d'.sb).inodeTableBlocks = (geometry d.sb).inodeTableBlocks := by
  have hipg := h.ipg
  have hisz := h.inodeSize
  simp only [geometry] at hipg hisz ⊢
  rw [hipg, hisz]

section

variable (hi : i < (geometry d.sb).ipg)

include hi

theorem Extended.inScope_iff :
    InScope (geometry d'.sb) (i + 1) (inodeOn d' i) ↔
      InScope (geometry d.sb) (i + 1) (inodeOn d i) := by
  rcases h.inode i hi with hsame | ⟨-, hlt, hne⟩
  · rw [InScope, InScope, h.firstIno, hsame.mode_eq, hsame.skips_eq]
  · exact iff_of_false (reserved_skips (h.firstIno ▸ hlt) hne) (reserved_skips hlt hne)

theorem Extended.mode_eq : modeOf (inodeOn d' i) = modeOf (inodeOn d i) := by
  rcases h.inode i hi with hsame | ⟨hmode, -⟩
  · exact hsame.mode_eq
  · exact hmode

theorem Extended.isDirectory_iff :
    IsDirectory (geometry d'.sb) (i + 1) (inodeOn d' i) ↔
      IsDirectory (geometry d.sb) (i + 1) (inodeOn d i) := by
  rw [IsDirectory, IsDirectory, h.inScope_iff hi, h.mode_eq hi]

/-- An inode in scope is as it was, with its blocks. -/
theorem Extended.same (hon : AllocatedOn d i)
    (hin : InScope (geometry d.sb) (i + 1) (inodeOn d i)) :
    SameInode (inodeOn d i) (inodeOn d' i) ∧ (∀ b ∈ blocksOf d (inodeOn d i), blockAt d' b = blockAt d b) ∧
      blocksOf d' (inodeOn d' i) = blocksOf d (inodeOn d i) ∧
      fileBlocks d' (inodeOn d' i) = fileBlocks d (inodeOn d i) := by
  have hinode : SameInode (inodeOn d i) (inodeOn d' i) := by
    rcases h.inode i hi with hsame | ⟨-, hlt, hne⟩
    · exact hsame
    · exact absurd hin (reserved_skips hlt hne)
  have hsame : ∀ b ∈ blocksOf d (inodeOn d i), blockAt d' b = blockAt d b := by
    intro b hb
    refine h.block i hon b ?_
    rwa [reached, show inodeAt d (geometry d.sb) (blockAt d 1) (i + 1) = inodeOn d i from rfl, if_pos hin]
  obtain ⟨hblocks, hfile⟩ := blocksOf_congr hsame
  obtain ⟨hblocks', hfile'⟩ := hinode.blocks_eq d'
  exact ⟨hinode, hsame, hblocks'.trans hblocks, hfile'.trans hfile⟩

theorem Extended.reached_eq (hon : AllocatedOn d i) :
    reached d' (geometry d'.sb) (blockAt d' 1) (i + 1) =
      reached d (geometry d.sb) (blockAt d 1) (i + 1) := by
  rw [reached, reached, show inodeAt d' (geometry d'.sb) (blockAt d' 1) (i + 1) = inodeOn d' i from rfl,
    show inodeAt d (geometry d.sb) (blockAt d 1) (i + 1) = inodeOn d i from rfl]
  simp only [h.inScope_iff hi]
  split
  · rename_i hin
    exact (h.same hi hon hin).2.2.1
  · rfl

end

variable (hc : CleanFs sectors d) (hinodes : (geometry d.sb).inodes = (geometry d.sb).ipg)

include hc hinodes

/-- The inodes of the larger file system are those of the old one. -/
theorem Extended.allocated_iff : AllocatedOn d' i ↔ AllocatedOn d i := by
  have hipg := hc.ipg_pos
  rw [AllocatedOn, AllocatedOn, OnDisk, OnDisk, h.inodes, h.ipg, hinodes]
  have hmod := Nat.mod_lt i hipg
  by_cases hlt : i < (geometry d.sb).ipg
  · have hin : i < (geometry d'.sb).groups * (geometry d.sb).ipg :=
      lt_of_lt_of_le hlt (Nat.le_mul_of_pos_left _ h.groups.1)
    rw [Nat.div_eq_of_lt hlt, Nat.mod_eq_of_lt hlt, h.inodeBitmap, h.inodeMap i hlt]
    simp only [hlt, hin]
  · refine ⟨fun hon => ?_, fun hon => absurd hon.1 hlt⟩
    -- a new group has no inodes
    have hg : i / (geometry d.sb).ipg < (geometry d'.sb).groups :=
      Nat.div_lt_of_lt_mul (Nat.mul_comm _ _ ▸ hon.1)
    have hpos : 0 < i / (geometry d.sb).ipg := Nat.div_pos (by omega) hipg
    have hfree := (h.new _ hpos hg).free (i % (geometry d.sb).ipg) (h.ipg ▸ hmod)
    rw [hon.2] at hfree
    cases hfree

theorem Extended.perm : (allocatedInodes d').Perm (allocatedInodes d) := by
  refine (perm_ext_iff_of_nodup nodup_allocatedInodes nodup_allocatedInodes).mpr fun i => ?_
  rw [mem_allocatedInodes, mem_allocatedInodes, h.allocated_iff hc hinodes]

theorem Extended.dirsIn_eq (g : Nat) : dirsIn d' g = if g = 0 then dirsIn d 0 else 0 := by
  have hlt : ∀ i ∈ allocatedInodes d, i < (geometry d.sb).ipg := fun i hi =>
    hinodes ▸ (mem_allocatedInodes.mp hi).1
  have heq : dirsIn d' g = (allocatedInodes d).countP fun i =>
      IsDirectory (geometry d.sb) (i + 1) (inodeOn d i) ∧ 0 = g := by
    rw [dirsIn, (h.perm hc hinodes).countP_eq]
    refine countP_congr fun i hi => ?_
    simp only [h.ipg, Nat.div_eq_of_lt (hlt i hi), h.isDirectory_iff (hlt i hi)]
  have hzero : dirsIn d 0 = (allocatedInodes d).countP fun i =>
      IsDirectory (geometry d.sb) (i + 1) (inodeOn d i) := by
    refine countP_congr fun i hi => ?_
    simp only [Nat.div_eq_of_lt (hlt i hi), and_true]
  rw [heq, hzero]
  split
  · rename_i hg
    simp only [hg, and_true]
  · rename_i hg
    simp only [show ¬ 0 = g from Ne.symm hg, and_false]
    exact congrFun countP_false _

end

/-! ## Blocks -/

/-- The metadata of a new group is one range of blocks. -/
theorem NewGroup.groupMeta_eq (h : NewGroup d g) : groupMeta (geometry d.sb) (blockAt d 1) g =
    range' (groupStart (geometry d.sb) g)
      (blockBitmap (blockAt d 1) g - groupStart (geometry d.sb) g + 2 +
        (geometry d.sb).inodeTableBlocks) := by
  have hge := h.placed.1
  have hprefix : prefixEnd (blockAt d 1) g = blockBitmap (blockAt d 1) g := by
    rw [prefixEnd, h.maps, h.table]
    omega
  rw [groupMeta, hprefix, h.maps, h.table]
  generalize blockBitmap (blockAt d 1) g = bb at *
  generalize groupStart (geometry d.sb) g = first at *
  have hpair : [bb] ++ [bb + 1] = range' bb 2 := rfl
  rw [append_assoc (range' first (bb - first)), hpair]
  have hstep : range' first (bb - first) ++ range' bb 2 = range' first (bb - first + 2) := by
    have := range'_append_1 (s := first) (m := bb - first) (n := 2)
    rwa [Nat.add_sub_cancel' hge] at this
  have hlast := range'_append_1 (s := first) (m := bb - first + 2) (n := (geometry d.sb).inodeTableBlocks)
  rw [show first + (bb - first + 2) = bb + 2 by omega] at hlast
  rw [hstep, hlast]

theorem NewGroup.mem_iff (h : NewGroup d g) : b ∈ groupMeta (geometry d.sb) (blockAt d 1) g ↔
    groupStart (geometry d.sb) g ≤ b ∧
      b < blockBitmap (blockAt d 1) g + 2 + (geometry d.sb).inodeTableBlocks := by
  have hge := h.placed.1
  rw [h.groupMeta_eq, mem_range'_1]
  omega

/-- A block of a new group has the number of the group. -/
theorem NewGroup.div_eq (h : NewGroup d g) (hb : b ∈ groupMeta (geometry d.sb) (blockAt d 1) g) :
    b / (geometry d.sb).bpg = g ∧ b < (geometry d.sb).blocks := by
  obtain ⟨hge, hlt⟩ := h.mem_iff.mp hb
  have hend := h.placed.2.2.2.2.2
  rw [h.table, groupEnd] at hend
  rw [groupStart] at hge hend
  have hdiv : b / (geometry d.sb).bpg = g := by
    refine Nat.div_eq_of_lt_le hge ?_
    rw [Nat.add_mul]
    omega
  exact ⟨hdiv, by omega⟩

section

variable (h : Extended sectors d d') (hc : CleanFs sectors d) (hone : (geometry d.sb).groups = 1)
  (hinodes : (geometry d.sb).inodes = (geometry d.sb).ipg)

include h

theorem Extended.groupMeta_zero : groupMeta (geometry d'.sb) (blockAt d' 1) 0 =
    groupMeta (geometry d.sb) (blockAt d 1) 0 := by
  rw [groupMeta, groupMeta, prefixEnd, prefixEnd, groupStart, groupStart, Nat.zero_mul, Nat.zero_mul, h.blockBitmap,
    h.inodeBitmap, h.inodeTable, h.tableBlocks]

omit h in
include hone in
theorem metadata_one : metadata (geometry d.sb) (blockAt d 1) =
    groupMeta (geometry d.sb) (blockAt d 1) 0 := by
  rw [metadata, hone]
  exact flatMap_singleton ..

include hc hone

/-- A block of the metadata has the number of its group. -/
theorem Extended.div_eq (hg : g < (geometry d'.sb).groups)
    (hb : b ∈ groupMeta (geometry d'.sb) (blockAt d' 1) g) :
    b / (geometry d.sb).bpg = g ∧ b < (geometry d'.sb).blocks := by
  by_cases hz : g = 0
  · subst hz
    rw [h.groupMeta_zero, ← metadata_one hone] at hb
    have hlt := hc.range b (mem_append_left _ hb)
    have hle := hc.blocks_le_bpg hone
    exact ⟨Nat.div_eq_of_lt (by omega), lt_of_lt_of_le hlt h.blocks⟩
  · have hnew := h.new g (Nat.pos_of_ne_zero hz) hg
    have := hnew.div_eq hb
    rwa [h.bpg] at this

theorem Extended.metadata_nodup : (metadata (geometry d'.sb) (blockAt d' 1)).Nodup := by
  refine nodup_flatMap.mpr ⟨fun g hg => ?_, ?_⟩
  · by_cases hz : g = 0
    · rw [hz, h.groupMeta_zero, ← metadata_one hone]
      exact (nodup_append.mp hc.nodup).1
    · rw [(h.new g (Nat.pos_of_ne_zero hz) (mem_range.mp hg)).groupMeta_eq]
      exact nodup_range'
  · refine List.Pairwise.imp_of_mem ?_ nodup_range
    intro g g' hg hg' hne b hb hb'
    have h1 := (h.div_eq hc hone (mem_range.mp hg) hb).1
    have h2 := (h.div_eq hc hone (mem_range.mp hg') hb').1
    exact hne (h1.symm.trans h2)

include hinodes

omit hone in
theorem Extended.used_perm : (usedBlocks d').Perm (metadata (geometry d'.sb) (blockAt d' 1) ++
    (allocatedInodes d).flatMap fun i => reached d (geometry d.sb) (blockAt d 1) (i + 1)) := by
  refine (((h.perm hc hinodes).flatMap_right _).trans (List.Perm.of_eq ?_)).append_left _
  refine flatMap_congr fun i hi => ?_
  have hon := mem_allocatedInodes.mp hi
  exact h.reached_eq (hinodes ▸ hon.1) hon

/-- A block in use was so before, or it belongs to the metadata of a new group. -/
theorem Extended.used_cases (hb : b ∈ usedBlocks d') : b ∈ usedBlocks d ∨
    ∃ g, 0 < g ∧ g < (geometry d'.sb).groups ∧ b ∈ groupMeta (geometry d'.sb) (blockAt d' 1) g := by
  rcases mem_append.mp ((h.used_perm hc hinodes).mem_iff.mp hb) with hmeta | hfile
  · obtain ⟨g, hg, hmem⟩ := mem_flatMap.mp hmeta
    by_cases hz : g = 0
    · rw [hz, h.groupMeta_zero, ← metadata_one hone] at hmem
      exact .inl (mem_append_left _ hmem)
    · exact .inr ⟨g, Nat.pos_of_ne_zero hz, mem_range.mp hg, hmem⟩
  · exact .inl (mem_append_right _ hfile)

theorem Extended.used_nodup : (usedBlocks d').Nodup := by
  refine (h.used_perm hc hinodes).nodup_iff.mpr (nodup_append.mpr ⟨h.metadata_nodup hc hone,
    (nodup_append.mp hc.nodup).2.1, fun a ha b hb heq => ?_⟩)
  subst heq
  obtain ⟨g, hg, hmem⟩ := mem_flatMap.mp ha
  have hdiv := (h.div_eq hc hone (mem_range.mp hg) hmem).1
  have hlt := hc.range a (mem_append_right _ hb)
  have hle := hc.blocks_le_bpg hone
  obtain rfl : g = 0 := by
    rw [← hdiv]
    exact Nat.div_eq_of_lt (by omega)
  rw [h.groupMeta_zero, ← metadata_one hone] at hmem
  exact (nodup_append.mp hc.nodup).2.2 a hmem a hb rfl

theorem Extended.marked (hb : b ∈ usedBlocks d') :
    bit (blockAt d' (Impl.Install.blockBitmap (blockAt d' 1) (b / (geometry d'.sb).bpg)))
      (b % (geometry d'.sb).bpg) = true := by
  rw [h.bpg]
  rcases h.used_cases hc hone hinodes hb with hold | ⟨g, hpos, hg, hmem⟩
  · have hlt := hc.range b hold
    have hle := hc.blocks_le_bpg hone
    have hmark := hc.marked b hold
    rw [Nat.div_eq_of_lt (by omega), Nat.mod_eq_of_lt (by omega)] at hmark ⊢
    rw [h.blockBitmap, h.map b hlt]
    exact hmark
  · have hnew := h.new g hpos hg
    have hdiv := (h.div_eq hc hone hg hmem).1
    have hsum := Nat.div_add_mod' b (geometry d.sb).bpg
    rw [hdiv] at hsum ⊢
    refine hnew.marked _ ?_
    rw [groupStart, h.bpg, hsum]
    exact (hnew.mem_iff.mp hmem).2

/-- The larger file system is clean as well. -/
theorem Extended.cleanFs : CleanFs sectors d' := by
  obtain ⟨hv1, hv2, hv3, hv4, hv5, hv6, hv7, hv8, hv9, hv10, hv11, hv12⟩ := hc.valid
  have hgr := h.groups
  have hblocks := h.blocks
  have hmul : (geometry d.sb).ipg ≤ (geometry d'.sb).inodes := by
    rw [h.inodes]
    exact Nat.le_mul_of_pos_left _ h.groups.1
  have hlt : ∀ i, AllocatedOn d i → i < (geometry d.sb).ipg := fun i hi => hinodes ▸ hi.1
  refine ⟨h.supported, h.state, ?_, ?_, lt_of_lt_of_le hc.one h.blocks, fun g hg => ?_, fun b hb => ?_,
    h.used_nodup hc hone hinodes, fun i hi => ?_, fun i hi hdir p hp off hoff => ?_,
    fun b hb => h.marked hc hone hinodes hb, fun g hg => ?_, h.super⟩
  · rw [validGeometry, h.bpg, h.ipg, h.inodeSize, h.firstIno]
    exact ⟨by omega, by omega, hv3, hv4, hv5, hv6, hv7, hv8, hv9, hv10, by omega, h.device⟩
  · rw [validGroups, h.inodes, h.ipg]
    refine ⟨hgr.1, hgr.2, ?_, le_refl _, ?_⟩
    · simp only [maxGroups] at hgr
      simp only [descSize, bs]
      omega
    · exact Nat.mul_lt_mul_of_pos_right (by omega) hv4
  · by_cases hz : g = 0
    · subst hz
      have hplaced := hc.placed 0 hc.groups.1
      rw [Placed, groupStart, groupEnd, groupStart, Nat.zero_mul] at hplaced ⊢
      rw [h.blockBitmap, h.inodeBitmap, h.inodeTable, h.tableBlocks, h.bpg]
      omega
    · exact (h.new g (Nat.pos_of_ne_zero hz) hg).placed
  · rcases h.used_cases hc hone hinodes hb with hold | ⟨g, -, hg, hmem⟩
    · exact lt_of_lt_of_le (hc.range b hold) h.blocks
    · exact (h.div_eq hc hone hg hmem).2
  · have hon := (h.allocated_iff hc hinodes).mp hi
    obtain ⟨hoff, htyped, htriple, hsized⟩ := hc.fit i hon
    refine ⟨?_, fun hz => ?_, fun hin => ?_, fun hdir => ?_⟩
    · rwa [inodeOff, h.ipg, h.inodeSize]
    · rw [h.firstIno]
      exact htyped (h.mode_eq (hlt i hon) ▸ hz)
    · have hin' := (h.inScope_iff (hlt i hon)).mp hin
      rw [(h.same (hlt i hon) hon hin').1.r32_eq (by decide)]
      exact htriple hin'
    · have hdir' := (h.isDirectory_iff (hlt i hon)).mp hdir
      obtain ⟨hinode, -, -, hfile⟩ := h.same (hlt i hon) hon hdir'.1
      obtain ⟨hholes, hall⟩ := hsized hdir'
      rw [hinode.r32_eq (by decide), Sized, hfile]
      refine ⟨fun j hj hz => ?_, hall⟩
      rw [hinode.directBlocks_eq (by omega)]
      rw [hinode.r32_eq (by omega)] at hz
      exact hholes j hj hz
  · have hon := (h.allocated_iff hc hinodes).mp hi
    have hdir' := (h.isDirectory_iff (hlt i hon)).mp hdir
    obtain ⟨hinode, hsame, -, hfile⟩ := h.same (hlt i hon) hon hdir'.1
    rw [dirBlocks, hfile, hinode.r32_eq (by decide)] at hp
    rw [hsame p (dirBlocks_blocksOf hp)] at hoff ⊢
    rw [h.allocated_iff hc hinodes]
    exact hc.entries i hon hdir' p hp off hoff
  · rw [h.dirsIn_eq hc hinodes]
    exact h.counters g hg

end

end Lorica.Proof.Install
