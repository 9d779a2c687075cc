import Lorica.Proof.Install.Repair

/-!
# ext2_repair: the directories after a repair

`parse_dir_block` walks over a block in the buffer `block`, where `read_inode` reads the
block of an inode when an entry names one that is not allocated. What follows that entry is
not looked at then: the walk goes on in the inode table. So the entries of a directory are
sound up to the first of these (`DirOk`), and where the rest is sound of itself
(`SoundRest`), all are (`directories_closed`). Which entry is the first depends on the map as
it is when the block is walked over: what other directories name has its bit by then.
-/

namespace Lorica.Proof.Install

open Lorica.Impl.Install Disk List

variable {d d' : Disk} {inode : Buf} {depth p i k : Nat}

/-! ## The blocks of a directory -/

/-- The data blocks of a directory within its size. -/
def sizedBlocks (d : Disk) (inode : Buf) : List Nat := nonzero ((fileBlocks d inode).take (blocksIn (r32 inode 4)))

theorem sizedBlocks_dirBlocks (h : p ∈ sizedBlocks d inode) : p ∈ dirBlocks d inode := by
  have hsub : sizedBlocks d inode <+: dirBlocks d inode := by
    refine prefix_take_iff.mpr ⟨( take_prefix _ _).filter _, ?_⟩
    exact (length_filter_le _ _).trans (length_take_le _ _)
  exact hsub.subset h

theorem leavesOf_under (h : p ∈ leavesOf d depth k) (hp : p ≠ 0) : p ∈ under d depth k := by
  induction depth generalizing k with
  | zero =>
    obtain rfl := mem_singleton.mp h
    rw [under, if_neg hp]
    exact h
  | succ depth ih =>
    rw [leavesOf] at h
    rw [under]
    split at h
    · exact absurd (eq_of_mem_replicate h) hp
    rename_i hk
    obtain ⟨i, hi, hmem⟩ := mem_flatMap.mp h
    rw [if_neg hk]
    exact mem_cons_of_mem _ (mem_flatMap.mpr ⟨i, hi, ih hmem⟩)

theorem dirBlocks_blocksOf (h : p ∈ dirBlocks d inode) : p ∈ blocksOf d inode := by
  obtain ⟨hfile, hp⟩ := mem_filter.mp (mem_of_mem_take h)
  have hp : p ≠ 0 := of_decide_eq_true hp
  rw [fileBlocks, mem_append, mem_append] at hfile
  rw [blocksOf, mem_append, mem_append]
  refine hfile.imp (Or.imp (fun h => ?_) fun h => leavesOf_under h hp) fun h => leavesOf_under h hp
  obtain ⟨i, hi, hmem⟩ := mem_flatMap.mp h
  exact mem_flatMap.mpr ⟨i, hi, leavesOf_under hmem hp⟩

/-! ## Entries -/

/-- Inode `i + 1` of an image, and whether it has its bit in the inode bitmap. -/
def inodeOn (d : Disk) (i : Nat) : Buf := inodeAt d (geometry d.sb) (blockAt d 1) (i + 1)

def AllocatedOn (d : Disk) (k : Nat) : Prop := OnDisk d (geometry d.sb) (blockAt d 1) k

/-- The entries of a directory are well formed, and what they name is as `P` says. -/
def Entries (d : Disk) (i : Nat) (P : Nat → Prop) : Prop :=
  ∀ p ∈ sizedBlocks d (inodeOn d i), ∀ off, EntryAt (blockAt d p) 0 off →
    wellFormed (blockAt d p) off = true ∧ (r32 (blockAt d p) off ≠ 0 → P (r32 (blockAt d p) off - 1))

/-- If inode `i + 1` was scanned and is a directory, its entries are well formed and name
inodes in range that are allocated and were scanned. -/
def ClosedAt (d : Disk) (scanned : Buf) (i : Nat) : Prop :=
  bit scanned i = true → modeOf (inodeOn d i) = sIfdir → Entries d i fun k => AllocatedOn d k ∧ bit scanned k = true

/-- An entry before `off` names an inode in range that has no bit in the map `alloc`. -/
def AfterMissing (d : Disk) (alloc : Buf) (p off : Nat) : Prop :=
  ∃ o < off, EntryAt (blockAt d p) 0 o ∧ r32 (blockAt d p) o ≠ 0 ∧
    r32 (blockAt d p) o ≤ (geometry d.sb).inodes ∧ bit alloc (r32 (blockAt d p) o - 1) = false

/-- The entries of a block after one that names an inode without a bit in `alloc` are well
formed, and each names an inode in range that has its bit or is named before it in the
block. -/
def SoundRest (d : Disk) (alloc : Buf) (p : Nat) : Prop :=
  ∀ off, EntryAt (blockAt d p) 0 off → AfterMissing d alloc p off →
    wellFormed (blockAt d p) off = true ∧ (r32 (blockAt d p) off ≠ 0 →
      r32 (blockAt d p) off ≤ (geometry d.sb).inodes ∧ (bit alloc (r32 (blockAt d p) off - 1) = true ∨
        ∃ o < off, EntryAt (blockAt d p) 0 o ∧ r32 (blockAt d p) o = r32 (blockAt d p) off))

/-- If inode `i + 1` is a directory it is not a reserved one but the root, and the rest of
each of its blocks is sound when the block is walked over. -/
def Settled (d : Disk) (parsed : List (Nat × Buf)) (i : Nat) : Prop :=
  modeOf (inodeOn d i) = sIfdir →
    skipsInode (geometry d.sb).firstIno (i + 1) (inodeOn d i) = false ∧
      ∀ p ∈ sizedBlocks d (inodeOn d i), ∀ alloc, (p, alloc) ∈ parsed → SoundRest d alloc p

section

variable {sectors : Nat} {s : Totals} {order : List Nat} (h : Checked d sectors s) (hscan : Scanned d s.r order)
  (habove : AboveGdt s.r.gdt) (hm : Mended d s.r d')

include h

theorem Checked.inodeOn_eq : inodeOn d i = inodeAt d s.r.geo s.r.gdt (i + 1) := by
  rw [inodeOn, h.geometry, h.gdt]

theorem Checked.allocatedOn : AllocatedOn d k ↔ OnDisk d s.r.geo s.r.gdt k := by
  rw [AllocatedOn, h.geometry, h.gdt]

include hscan habove hm

/-- The directories that were parsed are on the resulting image as they were. -/
theorem entries_mended {P : Nat → Prop} (hi : i ∈ order)
    (hin : InScope s.r.geo (i + 1) (inodeAt d s.r.geo s.r.gdt (i + 1))) :
    modeOf (inodeOn d' i) = modeOf (inodeOn d i) ∧ (Entries d' i P ↔ Entries d i P) := by
  have hinode : inodeOn d' i = inodeOn d i := by
    rw [h.inodeOn_eq, inodeOn, hm.geometry]
    exact inodeAt_eq h hscan habove hm (hscan.lt i hi)
  have hsame : ∀ b ∈ blocksOf d (inodeOn d i), blockAt d' b = blockAt d b := fun b hb => by
    refine (blockAt_reached h hscan habove hm hi ?_).1
    rwa [reached, if_pos hin, ← h.inodeOn_eq]
  have hsized : sizedBlocks d' (inodeOn d i) = sizedBlocks d (inodeOn d i) := by
    rw [sizedBlocks, (blocksOf_congr hsame).2]
    rfl
  refine ⟨by rw [hinode], ?_⟩
  rw [Entries, hinode, hsized]
  refine forall₂_congr fun p hp => ?_
  rw [hsame p (dirBlocks_blocksOf (sizedBlocks_dirBlocks hp))]

omit hscan habove in
/-- An inode with its bit in the map that the repair writes is allocated and was scanned. -/
theorem allocated_mended (hk : k < s.r.inodes) (hbit : bit s.r.inodeAlloc k = true) :
    AllocatedOn d' k ∧ bit s.r.scanned k = true := by
  have hipg : 0 < s.r.ipg := h.valid.2.2.2.1
  have hle : s.r.ipg ≤ bs * 8 := h.valid.2.2.2.2.2.1
  have hmod := Nat.mod_lt k hipg
  have hg := (inodeBlock_mem h hk).1
  obtain ⟨j, hj, hkj, rfl⟩ := (exists_groupInode s.r.geo hipg (P := fun j => j = k % s.r.ipg)).mpr ⟨hk, rfl, rfl⟩
  refine ⟨?_, h.closed k hk hbit⟩
  rw [AllocatedOn, hm.geometry, OnDisk, (hm.places _ hg).2.1, hm.inodes _ hg _ (by omega), inodeFill,
    (fillBits_spec _ _ _ 0 _).bits]
  refine ⟨hk, .inr ⟨Nat.zero_le _, by omega, ?_⟩⟩
  rwa [← hkj]

omit hscan habove hm in
/-- An entry with none before it that names an inode without a bit. -/
theorem DirOk.entry {alloc : Buf} (hok : DirOk (blockAt d p) 0 s.r.inodes alloc s.r.inodeAlloc) {off : Nat}
    (hoff : EntryAt (blockAt d p) 0 off) (hbefore : ¬ AfterMissing d alloc p off) :
    wellFormed (blockAt d p) off = true ∧ (r32 (blockAt d p) off ≠ 0 →
      r32 (blockAt d p) off ≤ s.r.inodes ∧ bit s.r.inodeAlloc (r32 (blockAt d p) off - 1) = true) := by
  have hnames : ∀ o, EntryAt (blockAt d p) 0 o → o < off → Names (blockAt d p) alloc o := by
    intro o
    -- By strong induction: the entry is in range since all before it name allocated inodes.
    induction o using Nat.strong_induction_on with
    | _ o ih =>
      intro ho hlt
      by_contra hno
      obtain ⟨-, -, hle⟩ := hok o ho fun o' ho' hlt' => ih o' hlt' ho' (by omega)
      have hne : r32 (blockAt d p) o ≠ 0 := fun heq => hno (.inl heq)
      exact hbefore ⟨o, hlt, ho, hne, h.geometry ▸ hle, Bool.eq_false_of_not_eq_true fun hbit => hno (.inr hbit)⟩
  obtain ⟨hwf, hname, hle⟩ := hok off hoff hnames
  exact ⟨hwf, fun hne => ⟨hle, hname.resolve_left hne⟩⟩

omit habove hm in
/-- The entries of a block of a directory, if what the walk did not look at is sound. -/
theorem entry_checked (hi : i ∈ order)
    (hin : InScope s.r.geo (i + 1) (inodeAt d s.r.geo s.r.gdt (i + 1)))
    (hdir : modeOf (inodeOn d i) = sIfdir) (hp : p ∈ dirBlocks d (inodeOn d i))
    (hrest : ∀ alloc, (p, alloc) ∈ s.r.parsed → SoundRest d alloc p) {off : Nat} (hoff : EntryAt (blockAt d p) 0 off) :
    wellFormed (blockAt d p) off = true ∧ (r32 (blockAt d p) off ≠ 0 →
      r32 (blockAt d p) off ≤ s.r.inodes ∧ bit s.r.inodeAlloc (r32 (blockAt d p) off - 1) = true) := by
  obtain ⟨_, -, hparsed⟩ := hscan.parsed
  rw [h.inodeOn_eq] at hdir hp
  obtain ⟨alloc, hmem, -, hgrown, hok⟩ := hparsed i hi hin hdir p hp
  -- By strong induction: an inode that is named before has its bit in the end.
  induction off using Nat.strong_induction_on with
  | _ off ih =>
    by_cases hmiss : AfterMissing d alloc p off
    · obtain ⟨hwf, hname⟩ := hrest alloc hmem off hoff hmiss
      refine ⟨hwf, fun hne => ?_⟩
      obtain ⟨hle, hbit | ⟨o, hlt, ho, heq⟩⟩ := hname hne
      · exact ⟨h.geometry ▸ hle, hgrown _ hbit⟩
      · rw [← heq] at hne ⊢
        exact (ih o hlt ho).2 hne
    · exact hok.entry h hoff hmiss

theorem Mended.closedAt (hset : Settled d s.r.parsed i) : ClosedAt d' s.r.scanned i := by
  intro hbit hmode
  have hi := (hscan.scanned i).mp hbit
  have hinode := inodeAt_eq h hscan habove hm (hscan.lt i hi)
  have hdir : modeOf (inodeOn d i) = sIfdir := by
    rwa [inodeOn, hm.geometry, hinode, ← h.inodeOn_eq] at hmode
  obtain ⟨hskip, hafter⟩ := hset hdir
  have hin : InScope s.r.geo (i + 1) (inodeAt d s.r.geo s.r.gdt (i + 1)) := by
    rw [← h.inodeOn_eq, InScope, hdir, h.geometry]
    exact ⟨by decide, hskip⟩
  refine (entries_mended h hscan habove hm hi hin).2.mpr fun p hp off hoff => ?_
  obtain ⟨hwf, hname⟩ := entry_checked h hscan hi hin hdir (sizedBlocks_dirBlocks hp) (hafter p hp) hoff
  refine ⟨hwf, fun hne => ?_⟩
  obtain ⟨hle, hbit⟩ := hname hne
  exact allocated_mended h hm (by omega) hbit

end

/-- When `ext2_repair` ends well in repair mode, every scanned directory that was settled
when its blocks were walked over is closed on the resulting image. -/
theorem directories_closed {sectors : Nat} {σ : Nat → Choice} {res : Bool × Totals} (habove : AboveGdt (blockAt d 1))
    (h : (ext2Repair sectors true).run.exec σ d = (.ok res, d')) :
    ∀ i, Settled d res.2.r.parsed i → ClosedAt d' res.2.r.scanned i := by
  obtain ⟨s, hc, hm, hscanned, hparsed⟩ := ext2Repair_run habove h
  obtain ⟨order, hscan⟩ := hc.scan
  rw [hscanned, hparsed]
  exact fun i hset => hm.closedAt hc hscan (hc.gdt ▸ habove) hset

/-- There is one entry for all of block 5. -/
theorem sampleFs_rest (alloc : Buf) : SoundRest (sampleFs 4096) alloc 5 := by
  intro off hoff hmiss
  obtain ⟨o, hlt, -⟩ := hmiss
  have hlen : r16 (blockAt (sampleFs 4096) 5) 4 = bs := by decide
  rcases hoff.cases_head with rfl | ⟨-, hnext⟩
  · exact absurd hlt (Nat.not_lt_zero o)
  · have := hnext.bounds
    rw [Nat.zero_add, hlen] at this
    exact absurd this.2 (Nat.not_lt.mpr this.1)

/-- With one entry for all of its block the root is settled, and its file is allocated at the
end. -/
theorem directories_closed_sample : ∃ res d',
    (ext2Repair 64 true).run.exec (fun _ => .ok) (sampleFs 4096) = (.ok res, d') ∧
      Settled (sampleFs 4096) res.2.r.parsed 1 ∧ bit res.2.r.scanned 1 = true ∧ ClosedAt d' res.2.r.scanned 1 := by
  obtain ⟨res, d', hrun, ⟨hroot, -⟩, -⟩ := sampleFs_repair (.inr rfl)
  have hsized : sizedBlocks (sampleFs 4096) (inodeOn (sampleFs 4096) 1) = [5] := by decide
  have hset : Settled (sampleFs 4096) res.2.r.parsed 1 := by
    refine fun _ => ⟨by decide, fun p hp alloc _ => ?_⟩
    rw [hsized, mem_singleton] at hp
    exact hp ▸ sampleFs_rest alloc
  exact ⟨res, d', hrun, hset, hroot, directories_closed (sampleFs_above (.inr rfl)) hrun 1 hset⟩

/-- With more entries than the first, the repair ends well and leaves a malformed one. -/
theorem directories_closed_not : ∃ res d', AboveGdt (blockAt (sampleFs 12) 1) ∧
    (ext2Repair 64 true).run.exec (fun _ => .ok) (sampleFs 12) = (.ok res, d') ∧ ¬ ClosedAt d' res.2.r.scanned 1 := by
  have habove := sampleFs_above (.inl rfl)
  obtain ⟨res, d', hrun, ⟨hroot, -⟩, -⟩ := sampleFs_repair (.inl rfl)
  obtain ⟨s, hc, hm, hscanned, -⟩ := ext2Repair_run habove hrun
  obtain ⟨order, hscan⟩ := hc.scan
  have hi := (hscan.scanned 1).mp (hscanned ▸ hroot)
  have hin : InScope s.r.geo 2 (inodeAt (sampleFs 12) s.r.geo s.r.gdt 2) := by
    rw [hc.geometry, hc.gdt]
    decide
  obtain ⟨hmode, hentries⟩ := entries_mended (P := fun k => AllocatedOn d' k ∧ bit res.2.r.scanned k = true)
    hc hscan (hc.gdt ▸ habove) hm hi hin
  have hdir : modeOf (inodeOn (sampleFs 12) 1) = sIfdir := by decide
  refine ⟨res, d', habove, hrun, fun hclosed => ?_⟩
  have hfirst : EntryAt (blockAt (sampleFs 12) 5) 0 0 := .first (by decide)
  have hlen : 0 + r16 (blockAt (sampleFs 12) 5) (0 + 4) = 12 := by decide
  have hoff : EntryAt (blockAt (sampleFs 12) 5) 0 12 :=
    hlen ▸ hfirst.next (by decide) (by decide)
  have hwf := (hentries.mp (hclosed hroot (hmode.trans hdir)) 5 (by decide) 12 hoff).1
  exact absurd hwf (by decide)

end Lorica.Proof.Install
