import Lorica.Proof.Install.Dirs
import Lorica.Proof.Install.Pass

/-!
# ext2_repair: what the check says

`CleanFs sectors d` says of an image, in its own terms, what the check finds out about it:
the check returns 0 exactly on these images (`CleanFs.check`, `Checked.cleanFs`). So what
other programs do to a file system can be stated and proved on images, and two runs of the
check can be compared by what they see.
-/

namespace Lorica.Proof.Install

open Lorica.Impl.Install Disk List

variable {d d' : Disk} {sectors g i : Nat}

/-! ## Clean images -/

/-- The inodes with a bit in the inode bitmap, counted from 0. -/
def allocatedInodes (d : Disk) : List Nat :=
  (range (geometry d.sb).inodes).filter fun i =>
    bit (blockAt d (inodeBitmap (blockAt d 1) (i / (geometry d.sb).ipg))) (i % (geometry d.sb).ipg)

theorem mem_allocatedInodes : i ∈ allocatedInodes d ↔ AllocatedOn d i := by
  rw [allocatedInodes, mem_filter, mem_range]
  rfl

theorem nodup_allocatedInodes : (allocatedInodes d).Nodup := nodup_range.filter _

/-- The blocks of the metadata and of the allocated inodes. -/
def usedBlocks (d : Disk) : List Nat :=
  metadata (geometry d.sb) (blockAt d 1) ++
    (allocatedInodes d).flatMap fun i => reached d (geometry d.sb) (blockAt d 1) (i + 1)

theorem reached_usedBlocks {b : Nat} (hi : AllocatedOn d i)
    (hb : b ∈ reached d (geometry d.sb) (blockAt d 1) (i + 1)) : b ∈ usedBlocks d :=
  mem_append_right _ (mem_flatMap.mpr ⟨i, mem_allocatedInodes.mpr hi, hb⟩)

/-- How many directories a group has. -/
def dirsIn (d : Disk) (g : Nat) : Nat :=
  (allocatedInodes d).countP fun i =>
    IsDirectory (geometry d.sb) (i + 1) (inodeOn d i) ∧ i / (geometry d.sb).ipg = g

/-- The image of a file system in which nothing is to be repaired. -/
structure CleanFs (sectors : Nat) (d : Disk) : Prop where
  supported : supported d.sb
  state : StateClean d.sb
  valid : validGeometry sectors (geometry d.sb)
  groups : validGroups (geometry d.sb)
  one : 1 < (geometry d.sb).blocks
  placed : ∀ g < (geometry d.sb).groups, Placed (geometry d.sb) (blockAt d 1) g
  range : ∀ b ∈ usedBlocks d, b < (geometry d.sb).blocks
  nodup : (usedBlocks d).Nodup
  fit : ∀ i, AllocatedOn d i → Fit d (geometry d.sb) (i + 1) (inodeOn d i)
  entries : ∀ i, AllocatedOn d i → IsDirectory (geometry d.sb) (i + 1) (inodeOn d i) →
    ∀ p ∈ dirBlocks d (inodeOn d i), ∀ off, EntryAt (blockAt d p) 0 off → wellFormed (blockAt d p) off = true ∧
      (r32 (blockAt d p) off = 0 ∨ AllocatedOn d (r32 (blockAt d p) off - 1))
  marked : ∀ b ∈ usedBlocks d,
    bit (blockAt d (blockBitmap (blockAt d 1) (b / (geometry d.sb).bpg)))
      (b % (geometry d.sb).bpg) = true
  counters : ∀ g < (geometry d.sb).groups,
    Counters (blockAt d 1) g (zeroBlocks d g) (zeroInodes d g) (dirsIn d g)
  super : r32 d.sb 12 = ∑ g ∈ Finset.range (geometry d.sb).groups, zeroBlocks d g ∧
    r32 d.sb 16 = ∑ g ∈ Finset.range (geometry d.sb).groups, zeroInodes d g

/-! ## The check on a clean image -/

section

variable (h : CleanFs sectors d)

include h

theorem CleanFs.meta_lt {b : Nat} (hg : g < (geometry d.sb).groups)
    (hb : b ∈ groupMeta (geometry d.sb) (blockAt d 1) g) : b < (geometry d.sb).blocks :=
  h.range b (mem_append_left _ (groupMeta_sub hg hb))

/-- The blocks of different inodes are different. -/
theorem CleanFs.apart {j : Nat} (hi : AllocatedOn d i) (hj : AllocatedOn d j) (hne : i ≠ j) :
    (reached d (geometry d.sb) (blockAt d 1) (i + 1)).Disjoint
      (reached d (geometry d.sb) (blockAt d 1) (j + 1)) := by
  have hn := (nodup_append.mp h.nodup).2.1
  have hsymm : Std.Symm (Function.onFun List.Disjoint fun i =>
      reached d (geometry d.sb) (blockAt d 1) (i + 1)) := ⟨fun _ _ h => List.Disjoint.symm h⟩
  exact (nodup_flatMap.mp hn).2.forall (mem_allocatedInodes.mpr hi) (mem_allocatedInodes.mpr hj) hne

/-- The variables after the inode bitmaps have been read. -/
theorem CleanFs.allScannable {r0 r1 r2 : Repair} (hdev : sectors * 512 ≤ d.size)
    (h0 : r0 = ⟨geometry d.sb, sectors, d.sb, blockAt d 1, fun _ => 0, fun _ => 0, fun _ => 0,
      fun _ => 0, 0, 0, 0, 0, fun _ => 0, []⟩) (h1 : OnlyMarked r0 (metadata r0.geo r0.gdt) r1)
    (h2 : ∃ block alloc, r2 = { r1 with block := block, inodeAlloc := alloc } ∧ ∀ k, bit alloc k = true ↔
      bit r1.inodeAlloc k = true ∨ OnDisk d r1.geo r1.gdt k ∧ k / r1.ipg < r1.groups) :
    AllScannable d r2 := by
  obtain ⟨block, alloc, rfl, halloc⟩ := h2
  have hgeo : r1.geo = geometry d.sb := by rw [h1.geometry, h0]
  have hgdt : r1.gdt = blockAt d 1 := by rw [h1.gdt, h0]
  have hsec : r1.sectors = sectors := by rw [h1.eq, h0]
  have hzero : ∀ k, bit r1.inodeAlloc k = false := fun k => by
    rw [h1.eq, h0]
    exact bit_zero
  have honly : ∀ k, bit alloc k = true → AllocatedOn d k := fun k hk => by
    rw [halloc, hzero, hgeo, hgdt] at hk
    exact (hk.resolve_left Bool.false_ne_true).1
  have hall : ∀ k, AllocatedOn d k → bit alloc k = true := fun k hk => by
    rw [halloc, hgeo, hgdt]
    exact .inr ⟨hk, (inodeBlock_in (blockAt d 1) h.valid h.groups hk.1).1⟩
  have hrefs : ∀ b, bit r1.blockRefs b = true → b ∈ metadata (geometry d.sb) (blockAt d 1) := fun b hb => by
    have := (h1.marked.bits b).mp hb
    rw [h0, bit_zero] at this
    exact this.resolve_left Bool.false_ne_true
  refine ⟨⟨?_, ?_⟩, fun i hi => ?_, fun i hi => ?_, fun i hi j hj hne => ?_⟩
  · rwa [hsec]
  · rw [hsec, hgeo]
    exact h.valid.2.2.2.2.2.2.2.2.2.2.2
  · rw [hgeo]
    exact (honly i hi).1
  · have hon := honly i hi
    obtain ⟨hg, hge, hlt⟩ := inodeBlock_in (blockAt d 1) h.valid h.groups hon.1
    refine ⟨?_, ?_, ?_, ⟨?_, ?_, ?_⟩, ?_⟩
    all_goals simp only [hgeo, hgdt]
    · exact ⟨Nat.succ_ne_zero i, hon.1⟩
    · exact h.meta_lt hg (table_mem hge hlt)
    · exact h.fit i hon
    · exact fun b hb => h.range b (reached_usedBlocks hon hb)
    · intro b hb
      rw [← Bool.not_eq_true]
      intro hbit
      refine (nodup_append.mp h.nodup).2.2 b (hrefs b hbit) b ?_ rfl
      exact mem_flatMap.mpr ⟨i, mem_allocatedInodes.mpr hon, hb⟩
    · exact (nodup_flatMap.mp (nodup_append.mp h.nodup).2.1).1 i (mem_allocatedInodes.mpr hon)
    · intro hdir p hp off hoff
      obtain ⟨hwf, hname⟩ := h.entries i hon hdir p hp off hoff
      refine ⟨hwf, hname.imp_right fun hk => ⟨?_, hall _ hk⟩⟩
      have := hk.1
      omega
  · simp only [hgeo, hgdt]
    exact h.apart (honly i hi) (honly j hj) hne

/-- Without faults, the check ends well and no inode is missing. -/
theorem CleanFs.check_finds (hdev : sectors * 512 ≤ d.size) :
    Finds (check sectors) d fun s => s.r.missingInodes = 0 ∧ Checked d sectors s := by
  have hfinds : Finds (check sectors) d fun s => s.r.missingInodes = 0 := by
    refine .bind ((openFs_finds hdev h.supported h.valid h.groups h.one).and_gets openFs_gets) fun r0 h0 => ?_
    obtain ⟨-, h0, -⟩ := h0
    have hfresh : Fresh r0 (metadata r0.geo r0.gdt) := by
      rw [h0]
      exact ⟨fun b hb => h.range b (mem_append_left _ hb), fun _ _ => bit_zero, (nodup_append.mp h.nodup).1⟩
    refine .bind (markMetadata_finds (h0 ▸ h.placed) hfresh) fun r1 h1 => ?_
    have hgeo : r1.geo = geometry d.sb := by rw [h1.geometry, h0]
    have hgdt : r1.gdt = blockAt d 1 := by rw [h1.gdt, h0]
    have hmaps : ∀ g < r1.groups, blockBitmap r1.gdt g < r1.blocks ∧ inodeBitmap r1.gdt g < r1.blocks := by
      rw [hgeo, hgdt]
      exact fun g hg => ⟨h.meta_lt hg blockBitmap_mem, h.meta_lt hg inodeBitmap_mem⟩
    have hd1 : OnDevice d r1 := by
      refine h1.walked.onDevice ?_
      rw [h0]
      exact ⟨hdev, h.valid.2.2.2.2.2.2.2.2.2.2.2⟩
    have hipg : 0 < r1.ipg := by
      rw [hgeo]
      exact h.valid.2.2.2.1
    refine .bind ((loadInodeMaps_finds hd1 fun g hg => (hmaps g hg).2).and_gets
      (loadInodeMaps_gets hipg)) fun r2 h2 => ?_
    have hall := h.allScannable hdev h0 h1 h2.2
    obtain ⟨block, alloc, hr2, -⟩ := h2.2
    refine .bind ((scanAll_finds hall).and_gets scanAll_gets) fun r3 h3 => ?_
    obtain ⟨hsame, ⟨order, hw⟩, -⟩ := h3
    have hzero : r3.missingInodes = 0 := by rw [hsame, hr2, h1.eq, h0]
    have hgeo3 : r3.geo = r1.geo := hw.walked.geometry.trans (by rw [hr2])
    have hgdt3 : r3.gdt = r1.gdt := hw.walked.gdt.trans (by rw [hr2])
    have hd3 : OnDevice d r3 := Walked.onDevice hw.walked ⟨hall.device.size, hall.device.blocks⟩
    refine .bind (reconcile_finds hd3 ?_) fun s hs => .pure ?_
    · rw [hgeo3, hgdt3]
      exact hmaps
    · rw [countSuper_like.1.missingInodes, hs.missingInodes, hzero]
  exact hfinds.and_gets check_gets

end

/-! ## What was scanned and what is allocated -/

section

variable {s : Totals} {order : List Nat} (h : Checked d sectors s) (hscan : Scanned d s.r order)

include h hscan

/-- When the inode bitmaps are those in memory, the inodes that were scanned are those that are
allocated. -/
theorem allocatedInodes_perm (hgeo : geometry d'.sb = s.r.geo)
    (halloc : ∀ k < s.r.inodes, AllocatedOn d' k ↔ bit s.r.inodeAlloc k = true) : (allocatedInodes d').Perm order := by
  refine (perm_ext_iff_of_nodup nodup_allocatedInodes hscan.nodup).mpr fun i => ?_
  rw [mem_allocatedInodes]
  constructor
  · intro hi
    have hlt : i < s.r.inodes := by
      rw [← hgeo]
      exact hi.1
    exact (hscan.scanned i).mp (h.closed i hlt ((halloc i hlt).mp hi))
  · intro hi
    exact (halloc i (hscan.lt i hi)).mpr (hscan.alloc i hi)

omit hscan in
theorem Checked.allocated_iff (hmi : s.r.missingInodes = 0) (k : Nat) : AllocatedOn d k ↔
    bit s.r.inodeAlloc k = true := by
  rw [h.allocatedOn]
  exact ⟨h.onDisk k, h.same hmi k⟩

omit hscan in
/-- The counters are those of the bitmaps on the disk, if no bit is missing. -/
theorem Checked.free_eq (hmb : s.r.missingBlocks = 0) (hmi : s.r.missingInodes = 0) (hg : g < s.r.groups) :
    (blockFill d s.r g).free = zeroBlocks d g ∧ (inodeFill d s.r g).free = zeroInodes d g := by
  rw [blockFill_free, inodeFill_free, zeroBlocks, zeroInodes, ← h.geometry, ← h.gdt, h.blockFill_bits hmb hg]
  exact ⟨rfl, zeros_congr fun k _ => (h.inodeFill_bits hmi g k).symm⟩

/-- What was marked is in use. -/
theorem marked_usedBlocks (hmi : s.r.missingInodes = 0) {b : Nat}
    (hb : bit s.r.blockRefs b = true) : b ∈ usedBlocks d := by
  have hperm := allocatedInodes_perm h hscan h.geometry.symm fun k _ => h.allocated_iff hmi k
  have hmem := ((hscan.marked.bits b).mp hb).resolve_left (by rw [bit_zero]; exact Bool.false_ne_true)
  rw [h.geometry, h.gdt] at hmem
  rw [usedBlocks, mem_append]
  refine (mem_append.mp hmem).imp_right fun hb => ?_
  exact (hperm.flatMap_right _).mem_iff.mpr hb

/-- On a clean image the check finds nothing to repair. -/
theorem CleanFs.needsRepair_eq (hc : CleanFs sectors d) (hmi : s.r.missingInodes = 0) : needsRepair s.r = false := by
  have hbpg : 0 < s.r.bpg := h.valid.2.2.1
  have hmb : s.r.missingBlocks = 0 := by
    refine h.clean.mpr fun g hg => fillBits_fixed fun k _ hk hb => ?_
    have hmarked := hc.marked _ (marked_usedBlocks h hscan hmi hb)
    simp only [groupEnd, groupStart] at hk hmarked
    rw [← h.geometry, ← h.gdt, Nat.mul_comm, Nat.mul_add_div hbpg, Nat.mul_add_mod,
      Nat.div_eq_of_lt (show k < s.r.bpg by omega), Nat.mod_eq_of_lt (show k < s.r.bpg by omega)] at hmarked
    exact hmarked
  have hperm := allocatedInodes_perm h hscan h.geometry.symm fun k _ => h.allocated_iff hmi k
  have hdirs : ∀ g, s.r.dirsPerGroup g = dirsIn d g := fun g => by
    rw [hscan.dirs, dirsIn, hperm.countP_eq, h.geometry, h.gdt]
    rfl
  have hfree : ∀ g ∈ Finset.range s.r.groups, (blockFill d s.r g).free = zeroBlocks d g ∧
      (inodeFill d s.r g).free = zeroInodes d g := fun g hg => h.free_eq hmb hmi (Finset.mem_range.mp hg)
  have hcm : s.r.counterMismatches = 0 := by
    refine h.counters.mpr ⟨fun g hg => ?_, ?_, ?_⟩
    · obtain ⟨hb, hi⟩ := hfree g (Finset.mem_range.mpr hg)
      rw [hb, hi, hdirs, h.gdt]
      exact hc.counters g (h.geometry ▸ hg)
    · rw [h.freeBlocks, Finset.sum_congr rfl fun g hg => (hfree g hg).1, h.sb, h.geometry]
      exact hc.super.1
    · rw [h.freeInodes, Finset.sum_congr rfl fun g hg => (hfree g hg).2, h.sb, h.geometry]
      exact hc.super.2
  obtain ⟨hvalid, herrors⟩ := hc.state
  rw [needsRepair, h.sb, herrors, hmb, hmi, hcm, beq_eq_false_iff_ne.mpr hvalid]
  rfl

end

/-- The check of a clean image returns 0, in either mode, and all that it does is to read. -/
theorem CleanFs.check (h : CleanFs sectors d) (hdev : sectors * 512 ≤ d.size) (repair : Bool) : ∃ s,
    (ext2Repair sectors repair).run.exec (fun _ => .ok) d = (.ok (false, s), d) ∧
      ∀ o ∈ (ext2Repair sectors repair).run.trace (fun _ => .ok) d, Op.isWrite o = false := by
  have hend := WP.exec_done (h.check_finds hdev) (σ := fun _ => .ok) fun _ => trivial
  have hreads : ∀ o ∈ (Impl.Install.check sectors).run.trace (fun _ => .ok) d, Op.isWrite o = false := check_reads
  have hrun := Prog.trace_bind (Impl.Install.check sectors).run
    (ExceptT.bindCont (repairFound repair)) (fun _ => .ok) d
  rcases hcheck : (Impl.Install.check sectors).run.exec (fun _ => .ok) d with ⟨e | s, d1⟩
  · rw [hcheck] at hend
    exact hend.elim
  rw [hcheck] at hend hrun
  obtain ⟨rfl, hmi, hc⟩ := hend
  obtain ⟨order, hscan⟩ := hc.scan
  have hno := h.needsRepair_eq hc hscan hmi
  have hrest : repairFound repair s = pure (false, s) := by
    rw [repairFound, hno, if_neg fun h => Bool.false_ne_true h.2]
  refine ⟨s, ?_, ?_⟩
  · rw [ext2Repair, Try.exec_bind hcheck, hrest]
    rfl
  · have htrace : (ext2Repair sectors repair).run.trace (fun _ => .ok) d1 =
        (Impl.Install.check sectors).run.trace (fun _ => .ok) d1 := by
      refine hrun.trans ?_
      rw [ExceptT.bindCont, hrest]
      exact append_nil _
    rw [htrace]
    exact hreads

/-! ## Images that were checked -/

/-- The inodes that were scanned and what they reach are on `d'` as they were. -/
structure Seen (d : Disk) (r : Repair) (order : List Nat) (d' : Disk) : Prop where
  inode : ∀ i ∈ order, inodeAt d' r.geo (blockAt d' 1) (i + 1) = inodeAt d r.geo r.gdt (i + 1)
  block : ∀ i ∈ order, ∀ b ∈ reached d r.geo r.gdt (i + 1), blockAt d' b = blockAt d b

/-- The directories that were scanned are good. -/
def GoodDirs (d : Disk) (r : Repair) (order : List Nat) : Prop :=
  ∀ i ∈ order, IsDirectory r.geo (i + 1) (inodeAt d r.geo r.gdt (i + 1)) →
    ∀ p ∈ dirBlocks d (inodeAt d r.geo r.gdt (i + 1)), GoodDir (blockAt d p) 0 r.inodes r.inodeAlloc

section

variable {s : Totals} {order : List Nat} (h : Checked d sectors s) (hscan : Scanned d s.r order)
  (hm : Mended d s.r d')

include h hm

theorem Mended.allocated_iff {k : Nat} (hk : k < s.r.inodes) : AllocatedOn d' k ↔ bit s.r.inodeAlloc k = true := by
  refine ⟨fun hon => ?_, fun hbit => (allocated_mended h hm hk hbit).1⟩
  have hipg : 0 < s.r.ipg := h.valid.2.2.2.1
  have hle : s.r.ipg ≤ bs * 8 := h.valid.2.2.2.2.2.1
  have hmod := Nat.mod_lt k hipg
  have hg := (inodeBlock_mem h hk).1
  rw [AllocatedOn, hm.geometry, OnDisk, (hm.places _ hg).2.1, hm.inodes _ hg _ (by omega), inodeFill,
    (fillBits_spec _ _ _ 0 _).bits] at hon
  rcases hon.2 with hdisk | ⟨-, -, hbit⟩
  · exact h.onDisk k ⟨hk, hdisk⟩
  · rwa [Nat.div_add_mod'] at hbit

include hscan

theorem Mended.perm : (allocatedInodes d').Perm order :=
  allocatedInodes_perm h hscan hm.geometry fun _ hk => hm.allocated_iff h hk

variable (hseen : Seen d s.r order d')

include hseen

omit h hm hscan in
/-- The blocks of a file that was scanned. -/
theorem Seen.blocks {i : Nat} (hi : i ∈ order)
    (hin : InScope s.r.geo (i + 1) (inodeAt d s.r.geo s.r.gdt (i + 1))) :
    (∀ b ∈ blocksOf d (inodeAt d s.r.geo s.r.gdt (i + 1)), blockAt d' b = blockAt d b) ∧
    blocksOf d' (inodeAt d s.r.geo s.r.gdt (i + 1)) = blocksOf d (inodeAt d s.r.geo s.r.gdt (i + 1)) ∧
    fileBlocks d' (inodeAt d s.r.geo s.r.gdt (i + 1)) =
      fileBlocks d (inodeAt d s.r.geo s.r.gdt (i + 1)) := by
  have hsame : ∀ b ∈ blocksOf d (inodeAt d s.r.geo s.r.gdt (i + 1)), blockAt d' b = blockAt d b :=
    fun b hb => hseen.block i hi b (by rwa [reached, if_pos hin])
  exact ⟨hsame, blocksOf_congr hsame⟩

omit h hm hscan in
theorem Seen.reached {i : Nat} (hi : i ∈ order) :
    Install.reached d' s.r.geo (blockAt d' 1) (i + 1) = Install.reached d s.r.geo s.r.gdt (i + 1) := by
  rw [Install.reached, Install.reached, hseen.inode i hi]
  split
  · rename_i hin
    exact (hseen.blocks hi hin).2.1
  · rfl

theorem Mended.used_perm : (usedBlocks d').Perm
    (metadata s.r.geo s.r.gdt ++ order.flatMap fun i => Install.reached d s.r.geo s.r.gdt (i + 1)) := by
  rw [usedBlocks, hm.geometry, metadata_eq hm]
  refine ((hm.perm h hscan).flatMap_right _).trans (List.Perm.of_eq ?_) |>.append_left _
  exact flatMap_congr fun i hi => hseen.reached hi

/-- An image that was mended is clean, if the directories are good. -/
theorem Mended.cleanFs (hgood : GoodDirs d s.r order) : CleanFs sectors d' := by
  have hgeo := hm.geometry
  have hperm := hm.perm h hscan
  have hused := hm.used_perm h hscan hseen
  have hon : ∀ i, inodeOn d' i = inodeAt d' s.r.geo (blockAt d' 1) (i + 1) := fun i => by rw [inodeOn, hgeo]
  have horder : ∀ i, AllocatedOn d' i → i ∈ order := fun i hi => hperm.mem_iff.mp (mem_allocatedInodes.mpr hi)
  have hrefs : ∀ b ∈ usedBlocks d', b < s.r.blocks ∧ bit s.r.blockRefs b = true := fun b hb => by
    have hmem := hused.mem_iff.mp hb
    exact ⟨hscan.marked.lt b hmem, (hscan.marked.bits b).mpr (.inr hmem)⟩
  have hzeros : ∀ g ∈ Finset.range s.r.groups, (blockFill d s.r g).free = zeroBlocks d' g ∧
      (inodeFill d s.r g).free = zeroInodes d' g := fun g hg => zeros_eq h hm (Finset.mem_range.mp hg)
  refine ⟨hm.supported, hm.state, ?_, ?_, ?_, ?_, ?_, ?_, ?_, ?_, ?_, ?_, ?_⟩
  all_goals try rw [hgeo]
  · exact h.valid
  · exact h.groups
  · exact h.one
  · intro g hg
    obtain ⟨hbb, hib, hit⟩ := hm.places g hg
    rw [Placed, hbb, hib, hit]
    exact h.placed g hg
  · exact fun b hb => (hrefs b hb).1
  · exact hused.nodup_iff.mpr hscan.marked.nodup
  · intro i hi
    have hi := horder i hi
    obtain ⟨hoff, htyped, htriple, hsized⟩ := hscan.fit i hi
    rw [hon, hseen.inode i hi]
    refine ⟨hoff, htyped, htriple, fun hdir => ?_⟩
    rw [Sized, (hseen.blocks hi hdir.1).2.2]
    exact hsized hdir
  · intro i hi hdir p hp off hoff
    have hi := horder i hi
    rw [hon, hseen.inode i hi] at hdir hp
    obtain ⟨hsame, -, hfile⟩ := hseen.blocks hi hdir.1
    rw [dirBlocks, hfile] at hp
    rw [hsame p (dirBlocks_blocksOf hp)] at hoff ⊢
    obtain ⟨hwf, hname⟩ := hgood i hi hdir p hp off hoff
    refine ⟨hwf, or_iff_not_imp_left.mpr fun hne => ?_⟩
    obtain ⟨hle, hbit⟩ := hname.resolve_left hne
    exact (hm.allocated_iff h (by omega)).mpr hbit
  · exact fun b hb => blockBitmap_bit h hm (hrefs b hb).1 (hrefs b hb).2
  · intro g hg
    obtain ⟨hb, hi⟩ := hzeros g (Finset.mem_range.mpr hg)
    have hdirs : s.r.dirsPerGroup g = dirsIn d' g := by
      rw [hscan.dirs, dirsIn, hperm.countP_eq, hgeo]
      refine countP_congr fun i hi => ?_
      rw [hon, hseen.inode i hi]
    rw [← hb, ← hi, ← hdirs]
    exact hm.counters g hg
  · rw [← Finset.sum_congr rfl fun g hg => (hzeros g hg).1, ← Finset.sum_congr rfl fun g hg => (hzeros g hg).2]
    exact hm.super

end

/-- If the check finds nothing to repair, whatever fails on the way, the image is clean. -/
theorem Checked.cleanFs {s : Totals} (h : Checked d sectors s) (hno : needsRepair s.r = false) : CleanFs sectors d := by
  obtain ⟨order, hscan⟩ := h.scan
  have hseen : Seen d s.r order d := ⟨fun i _ => by rw [h.gdt], fun _ _ _ _ => rfl⟩
  have hmi : s.r.missingInodes = 0 := by
    simp only [needsRepair, Bool.or_eq_false_iff, bne_eq_false_iff_eq] at hno
    exact hno.1.2
  refine (h.mended hno).cleanFs h hscan hseen fun i hi hdir p hp off hoff => ?_
  obtain ⟨alloc, halloc, hparsed⟩ := hscan.parsed
  obtain ⟨log, -, hlog, -, hok⟩ := hparsed i hi hdir.1 hdir.2 p hp
  have hsame : ∀ k, bit alloc k = true ↔ bit s.r.inodeAlloc k = true := fun k => by
    rw [halloc, ← h.allocatedOn]
    exact h.allocated_iff hmi k
  -- All entries before name allocated inodes, by induction.
  induction off using Nat.strong_induction_on with
  | _ off ih =>
    have hbefore : ∀ o, EntryAt (blockAt d p) 0 o → o < off → Names (blockAt d p) log o := fun o ho hlt =>
      (ih o hlt ho).2.imp_right fun hname => hlog _ ((hsame _).mpr hname.2)
    obtain ⟨hwf, hname, hle⟩ := hok off hoff hbefore
    exact ⟨hwf, hname.imp_right fun hbit => ⟨hle, hbit⟩⟩

/-- `ext2_repair` returns 0 on clean images only. -/
theorem cleanFs_of_check {repair : Bool} {σ : Nat → Choice} {s : Totals} {d1 : Disk}
    (h : (ext2Repair sectors repair).run.exec σ d = (.ok (false, s), d1)) : CleanFs sectors d := by
  have hends : Ends (ext2Repair sectors repair) d fun res _ => res.1 = false → CleanFs sectors d := by
    refine Try.WP.bind check_gets.ends fun s d' hs => ?_
    obtain ⟨rfl, hc⟩ := hs
    rw [repairFound]
    split
    · exact Try.WP.bind (Q := fun _ _ => True)
        (Lorica.WP.ends Lorica.WP.trivial fun res _ _ => by cases res <;> trivial) fun _ _ _ =>
          Try.WP.pure fun h => absurd h Bool.false_ne_true.symm
    · exact Try.WP.pure fun hno => hc.cleanFs hno
  have hend := WP.exec_done hends (allows_all σ)
  rw [h] at hend
  exact hend rfl

end Lorica.Proof.Install
