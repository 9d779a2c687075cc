import Lorica.Framework.Until
import Lorica.Proof.Install.Image

/-!
# ext2_grow: runs

A run that ends well leaves a clean file system (`grow_consistent`). Before the superblock is
written the old file system is clean as long as the descriptors are not (`grow_commits`); where there
is room for the new groups and inode 7 lists all reserved blocks, a run without faults gets to them.
-/

namespace Lorica.Proof.Install

open Lorica.Impl.Install Disk

variable {d d₁ d₂ : Disk} {p : Plan} {s : Grow} {sectors g j b : Nat}

/-! ## Before the superblock -/

/-- The check returns 0 on the image. -/
def ChecksClean (sectors : Nat) (d : Disk) : Prop :=
  ∃ t, (ext2Repair sectors false).run.exec (fun _ => .ok) d = (.ok (false, t), d)

/-- What `ext2_grow` needs to get to the descriptors: each new group has room for its metadata,
and so has the device, and the reserved blocks are listed. -/
structure HasRoom (d : Disk) (p : Plan) : Prop where
  room : ∀ g, 0 < g → g < p.groups → groupTaken d.sb g < groupValid d.sb p g
  device : ∀ g, 0 < g → g < p.groups → (newMap d.sb g + 2 + (geometry d.sb).inodeTableBlocks) * spb * 512 ≤ d.size
  listed : Listed d

/-- `ext2_grow` has something to do and, if nothing fails, gets to the descriptors. -/
structure Growable (d : Disk) (target : Nat) : Prop where
  supported : growSupported d.sb
  resizable : resizable d.sb
  more : (geometry d.sb).blocks < partitionBlocks d.sb target
  room : HasRoom d (plan d.sb (partitionBlocks d.sb target))

theorem r16_inj {a b : Buf} {o : Nat} (h : r16 a o = r16 b o) : a o = b o ∧ a (o + 1) = b (o + 1) := by
  have h0 := (a o).toNat_lt
  have h1 := (b o).toNat_lt
  rw [r16, r16] at h
  exact ⟨UInt8.toNat_inj.mp (by omega), UInt8.toNat_inj.mp (by omega)⟩

section

variable {α β : Type} {K : Disk → Prop} {Q : α → Disk → Prop}

theorem Safe.trace {q : Rep α} (h : Safe K q d Q) (σ : Nat → Choice) :
    ∀ o ∈ q.run.trace σ d, writesSuper o = false := by
  have hops : WP (M := machine) (Allows true) q.run d _ fun o d' => K d' ∧ writesSuper o = false := h
  have hno : WP (M := machine) (Allows true) q.run d (fun _ _ => True) fun o _ => writesSuper o = false :=
    hops.mono (fun _ _ _ => trivial) fun _ _ h => h.2
  exact hno.trace (allows_all σ)

theorem Safe.until_bind {q : Rep α} {f : α → Rep β} (h : Safe K q d Q)
    (hf : ∀ a d', Q a d' → Until (Allows true) writesSuper K (f a).run d') :
    Until (M := machine) (Allows true) writesSuper K (q >>= f).run d :=
  Try.until_bind (Try.WP.weaken h (fun _ _ h => h) (fun _ _ h => h) fun _ _ h => h.1) hf

theorem writeSuper_until {buf : Buf} {m : String} {f : Unit → Rep β} (h : K d) :
    Until (M := machine) (Allows true) writesSuper K (orFail m (writeChecked 2 2 buf) >>= f).run d :=
  ⟨h, fun hstop => absurd (show true = false from hstop) (by decide)⟩

end

section

variable {target : Nat} (hc : CleanFs sectors d) (hs : Standard d)

include hc hs

/-- The descriptors are as they were if group 0 is not made larger. -/
theorem Laid.descriptors {n : Nat} (hlaid : Laid d p p.groups d₁) (hdesc : Described d p p.groups s)
    (hfull : group0End d.sb p ≤ (geometry d.sb).blocks) (hn : n ≤ spb * 512) :
    Kept d (d₁.overwrite (1 * spb * 512) n s.gdt) := by
  have htwo := hs.prefix_le
  have hcount : r16 s.gdt 12 = r16 (blockAt d 1) 12 := by
    rw [hdesc.count, Nat.sub_eq_zero_of_le hfull]
    exact Nat.mod_eq_of_lt (r16_lt _ _)
  obtain ⟨h12, h13⟩ := r16_inj hcount
  refine hlaid.kept.write hn Nat.one_ne_zero (fun _ o ho => ?_) (fun h => ?_) (fun h hr => ?_) fun h => ?_
  · by_cases hlow : o < 12
    · exact hdesc.places o hlow
    · by_cases hhigh : 14 ≤ o
      · exact hdesc.rest o hhigh ho
      · obtain rfl | rfl : o = 12 ∨ o = 12 + 1 := by omega
        · exact h12
        · exact h13
  · exact absurd h.symm (by have := hs.above.1; omega)
  · obtain ⟨⟨hge, -⟩, -⟩ := hs.resizeBlock_in hc hr
    omega
  · omega

/-- The old file system is kept as long as only the descriptors and the superblock are left. -/
theorem growBody_standard {K : Disk → Prop} (hp : Planned d.sb p) (hK : ∀ d', Kept d d' → K d')
    (hlast : ∀ s d₁, Described d p p.groups s → Laid d p p.groups d₁ → Listed d → ∀ n ≤ spb * 512,
      K (d₁.overwrite (1 * spb * 512) n s.gdt)) :
    Safe K (growBody d.sb p) d fun sb1 d' => ∃ s d₁, (Described d p p.groups s ∧ Laid d p p.groups d₁ ∧ Listed d) ∧
      d' = d₁.overwrite (1 * spb * 512) (spb * 512) s.gdt ∧ sb1 = growSuper d.sb p s.freeBlocks :=
  growBody_safe hc hs.toShaped hp (Laid.lasting hc hs.toShaped hK) hK
    (fun _ h hf => ⟨h, fun hres => (hs.refers hc h hf hres).2 (hs.apart hres)⟩) hlast

theorem ext2Grow_until (h : (geometry d.sb).blocks = (geometry d.sb).bpg ∨ ¬ Growable d target) :
    Until (M := machine) (Allows true) writesSuper (Kept d) (ext2Grow target).run d := by
  have hkept : Kept d d := .refl d
  rw [ext2Grow]
  split
  · exact hkept
  refine (Safe.orFail _ (growRead_safe hkept)).until_bind fun sb d₁ h1 => ?_
  obtain ⟨rfl, hread⟩ := h1
  obtain rfl : sb = d₁.sb := hread
  rw [growFs]
  split
  · exact hkept
  rename_i hsupported
  split
  · exact hkept
  rename_i hresizable
  split
  · exact hkept
  split
  · exact hkept
  rename_i hmore
  split
  · exact hkept
  obtain ⟨hp, -, -⟩ := plan_planned hc.bpg_pos (hc.blocks_le_bpg hs.groups) (Nat.lt_of_not_le hmore)
  have hlast : ∀ s d₂, Described d₁ _ _ s → Laid d₁ _ _ d₂ → Listed d₁ → ∀ n ≤ spb * 512,
      Kept d₁ (d₂.overwrite (1 * spb * 512) n s.gdt) := fun s d₂ hdesc hlaid hlisted n hn => by
    rcases h with hfull | hno
    · exact hlaid.descriptors hc hs hdesc (hfull ▸ hp.group0End_le) hn
    · exact absurd ⟨not_not.mp hsupported, not_not.mp hresizable, Nat.lt_of_not_le hmore, hlaid.room, hlaid.device,
        hlisted⟩ hno
  refine (growBody_standard hc hs hp (fun _ h => h) hlast).until_bind fun sb1 d₂ h2 => writeSuper_until ?_
  obtain ⟨s, d3, ⟨hdesc, hlaid, hlisted⟩, rfl, -⟩ := h2
  exact hlast s d3 hdesc hlaid hlisted _ (le_refl _)

/-- With the new descriptors and the old superblock the free blocks of group 0 are not as
many as the descriptor says. -/
theorem not_clean_of_descriptors (hp : Planned d.sb p) (hlaid : Laid d p p.groups d₁)
    (hdesc : Described d p p.groups s) (hmore : (geometry d.sb).blocks < group0End d.sb p) :
    ¬ CleanFs sectors (d₁.overwrite (1 * spb * 512) (spb * 512) s.gdt) := by
  intro hclean
  have hkept := hlaid.kept
  have habove := hs.above.1
  have hsuper : (d₁.overwrite (1 * spb * 512) (spb * 512) s.gdt).sb = d.sb :=
    (superblock_congr (blockAt_overwrite_ne (by decide))).trans hkept.super
  have hbytes : ∀ o < 14, blockAt (d₁.overwrite (1 * spb * 512) (spb * 512) s.gdt) 1 o = s.gdt o := fun o ho =>
    blockAt_overwrite (lt_trans ho (by decide))
  have hplace : blockBitmap (blockAt (d₁.overwrite (1 * spb * 512) (spb * 512) s.gdt) 1) 0 =
      blockBitmap (blockAt d 1) 0 := r32_congr fun i hi => by
    rw [hbytes _ (by omega), hdesc.places _ (by omega)]
  have hzeros : zeroBlocks (d₁.overwrite (1 * spb * 512) (spb * 512) s.gdt) 0 = zeroBlocks d 0 := by
    rw [← hkept.zeroBlocks_eq, zeroBlocks, zeroBlocks, hsuper, hplace, hkept.super,
      blockAt_overwrite_ne (by omega), blockBitmap, blockBitmap, hkept.r32_eq (by decide)]
  have hcount := (hclean.counters 0 hclean.groups.1).blocks
  have hold := (hc.counters 0 hc.groups.1).blocks
  have hfree := freeIn_lt hc hs.toShaped hp 0
  rw [freeIn, if_pos rfl] at hfree
  rw [Nat.zero_mul] at hcount hold
  rw [hzeros, r16_congr (hbytes _ (by decide)) (hbytes _ (by decide)), hdesc.count, hold] at hcount
  omega

/-- If there is room, the device holds all that is read and written. -/
theorem HasRoom.ready (hr : HasRoom d p) (hdev : sectors * 512 ≤ d.size) : Ready d p := by
  have hblocks : (geometry d.sb).blocks * spb * 512 ≤ d.size :=
    le_trans (Nat.mul_le_mul_right 512 hc.valid.2.2.2.2.2.2.2.2.2.2.2) hdev
  have habove := hs.above.1
  have hmap := hc.meta_lt hc.groups.1 blockBitmap_mem
  have hbpg := hc.blocks_le_bpg hs.groups
  rw [Ready, show r32 (blockAt d 1) 0 = blockBitmap (blockAt d 1) 0 by rw [blockBitmap, Nat.zero_mul]]
  refine ⟨.mono hblocks hc.one, by omega, .mono hblocks hmap,
    fun g hg hpos => ⟨hr.room g hpos hg, hr.device g hpos hg⟩, fun hres => ?_⟩
  have hplace : resizeBlock d.sb (groupsImage p d).1.gdt = resizeBlock d.sb (blockAt d 1) := by
    rw [resizeBlock, resizeBlock, r32_congr fun i hi => groupsImage_gdt _ (by omega)]
  have hold : ∀ b < (geometry d.sb).blocks, b ≠ blockBitmap (blockAt d 1) 0 →
      blockAt (groupsImage p d).2 b = blockAt d b := fun b hb hne => groupsImage_frame.block b (by omega)
  obtain ⟨-, hlt, hne⟩ := hs.resizeBlock_in hc hres
  obtain ⟨hzero, hlisted⟩ := hr.listed hres
  have hdind : dindBlock d.sb (groupsImage p d).1.gdt (groupsImage p d).2 = resizeDind d := by
    rw [dindBlock, hplace, hold _ hlt hne, resizeDind]
  rw [hdind, hplace, hold _ (hs.dind hres) (hs.apart hres)]
  rw [← groupsImage_size (p := p)] at hblocks
  refine ⟨.mono hblocks hlt, hzero, .mono hblocks (hs.dind hres), fun r hr => ⟨hlisted r hr, .mono hblocks ?_⟩⟩
  exact lt_trans (hs.reserved r hr (hlisted r hr)).2 hmap

omit hc in
theorem Growable.enlarges (h : Growable d target) : Enlarges d.sb target :=
  ⟨h.supported, h.resizable, hs.groups, h.more⟩

/-- A run without faults writes the descriptors before the superblock. -/
theorem ext2Grow_meets (hgrow : Growable d target) (hdev : sectors * 512 ≤ d.size)
    (hroom : (geometry d.sb).blocks ≠ (geometry d.sb).bpg) :
    (ext2Grow target).run.Meets (M := machine) writesSuper (fun d' => ¬ ChecksClean sectors d') .ok d := by
  have henl := hgrow.enlarges hs
  have hready := hgrow.room.ready hc hs hdev
  obtain ⟨hp, -, hmore⟩ := plan_planned hc.bpg_pos (hc.blocks_le_bpg hs.groups) hgrow.more
  have hsafe := growBody_standard hc hs hp (K := fun _ => True) (fun _ _ => trivial) fun _ _ _ _ _ _ _ => trivial
  obtain ⟨sb1, d', hbody, -, s, d₁, ⟨hdesc, hlaid, -⟩, rfl, rfl⟩ :=
    ((growBody_succeeds hready).and_ends hsafe.ends).exec
  have hlt : (geometry d.sb).blocks < (geometry d.sb).bpg :=
    lt_of_le_of_ne (hc.blocks_le_bpg hs.groups) hroom
  have hend : (geometry d.sb).blocks <
      group0End d.sb (plan d.sb (partitionBlocks d.sb target)) := by
    rw [group0End]
    split
    · exact hmore hlt
    · exact hlt
  rw [ext2Grow, if_neg (Nat.not_lt.mpr henl.spb_le)]
  refine Try.meets_bind ((Safe.orFail _ (growRead_safe (K := fun _ => True) trivial)).trace _) (super_exec hready.1) ?_
  rw [henl.growFs_eq]
  refine Try.meets_bind (hsafe.trace _) hbody (.here fun hclean => ?_)
  obtain ⟨t, hrun⟩ := hclean
  exact not_clean_of_descriptors hc hs hp hlaid hdesc hend (cleanFs_of_check hrun)

end

/-! ## Small file systems

A device of some blocks, each given by the bytes that are not 0. All have one group, a root
directory and no more than 8 blocks, as a rule.
-/

def image (blocks : Nat) (bytes : List (List (Nat × UInt8))) : Disk where
  size := blocks * bs
  bytes i := ((bytes.getD (i / bs) []).lookup (i % bs)).getD 0

/-- Block 0. What differs otherwise is in `rest`. -/
def superBytes (blocks bpg inodes freeBlocks freeInodes : UInt8) (rest : List (Nat × UInt8)) : List (Nat × UInt8) :=
  ([(0, inodes), (4, blocks), (12, freeBlocks), (16, freeInodes), (24, 2), (32, bpg), (40, inodes),
    (56, 0x53), (57, 0xef),
    (58, 1), (92, 0x10), (100, 1)] ++ rest).map fun x : Nat × UInt8 => (1024 + x.1, x.2)

/-- Block 1. -/
def descBytes (bb ib it freeBlocks freeInodes : UInt8) : List (Nat × UInt8) :=
  [(0, bb), (4, ib), (8, it), (12, freeBlocks), (14, freeInodes), (16, 1)]

/-- An inode at `off`: a directory with the block `b`, and one with the double-indirect block `b`. -/
def dirBytes (off : Nat) (b : UInt8) : List (Nat × UInt8) := [(off + 1, 0x41), (off + 5, 16), (off + 40, b)]

def resizeBytes (off : Nat) (mode b : UInt8) : List (Nat × UInt8) := [(off + 1, mode), (off + 92, b)]

/-- A directory with the entry `.`. -/
def dotBytes : List (Nat × UInt8) := [(0, 2), (5, 16), (6, 1), (8, 0x2e)]

/-- There are no reserved blocks, and a group may have `bpg` blocks. -/
def growSample (bpg : UInt8) : Disk :=
  image 16 [superBytes 8 bpg 16 2 15 [(84, 11), (88, 128)], descBytes 2 3 4 2 15, [(0, 0x3f)], [(0, 2)], dirBytes 128 5,
    dotBytes]

/-- Block 2 is reserved, and inode 7 lists it in block 6. -/
def resizeSample (firstIno mode : UInt8) : Disk :=
  image 16 [superBytes 8 8 16 0 14 [(84, firstIno), (88, 128), (206, 1)], descBytes 3 4 5 0 14, [],
    [(0, 0xff)], [(0, 0x42)],
    dirBytes 128 7 ++ resizeBytes 768 mode 6, [(4, 2)], dotBytes]

/-- The inode bitmap is the block of the descriptors, with inodes where these have a bit. -/
def lowSample : Disk :=
  image 16 [superBytes 8 16 128 0 120 [(84, 11), (88, 128)], descBytes 2 1 3 0 120,
    [(0, 0xff)], dirBytes 128 7, [(1, 0x81)],
    [(1, 0x81), (129, 0x81)], [(2433, 0x81), (2561, 0x81), (2689, 0x81), (2817, 0x81)], dotBytes]

/-- The reserved block is the second of the inode table. -/
def tableSample : Disk :=
  image 16 [superBytes 8 8 32 0 29 [(84, 11), (89, 1), (206, 1)], descBytes 4 5 2 0 29,
    dirBytes 256 7 ++ resizeBytes 1536 0x81 6, [(1, 0x81)], [(0, 0xff)], [(0, 0x42), (2, 1)], [(4, 3)], dotBytes]

/-- The double-indirect block of inode 7 is where the block bitmap of group 1 will be. Inodes
are as large as a block. -/
def farSample : Disk :=
  image 128 ([superBytes 40 64 29 5 27 [(84, 11), (89, 16), (206, 1)], descBytes 3 4 5 5 27, [],
    [(0, 0xff), (1, 0xff), (2, 0xff), (3, 0xff), (4, 7)], [(0, 0x42)], [], dirBytes 0 34, [], [], [], [],
    resizeBytes 0 0x81 67] ++ List.replicate 22 [] ++ [dotBytes] ++ List.replicate 32 [] ++ [[(4, 2)]])

theorem checksClean_iff (hdev : sectors * 512 ≤ d.size) : ChecksClean sectors d ↔
    ((ext2Repair sectors false).run.exec (fun _ => .ok) d).1.toOption.map Prod.fst = some false := by
  refine ⟨fun h => ?_, fun heval => ?_⟩
  · obtain ⟨t, hrun⟩ := h
    rw [hrun]
    rfl
  · rcases hrun : (ext2Repair sectors false).run.exec (fun _ => .ok) d with ⟨e | ⟨ret, t⟩, d'⟩
    · rw [hrun] at heval
      cases heval
    · rw [hrun] at heval
      obtain rfl : ret = false := Option.some.inj heval
      obtain ⟨t', hrun', -⟩ := (cleanFs_of_check hrun).check hdev false
      exact ⟨t', hrun'⟩

theorem growSample_clean {bpg : UInt8} (h : bpg = 8 ∨ bpg = 16) : ChecksClean 128 (growSample bpg) := by
  refine (checksClean_iff (show 128 * 512 ≤ 16 * bs by decide)).mpr ?_
  obtain rfl | rfl := h
  · decide +kernel
  · decide +kernel

theorem growSample_standard {bpg : UInt8} (h : bpg = 8 ∨ bpg = 16) : Standard (growSample bpg) := by
  obtain rfl | rfl := h
  · refine ⟨⟨?_, ?_, ?_, ?_, ?_⟩, ?_⟩ <;> decide
  · refine ⟨⟨?_, ?_, ?_, ?_, ?_⟩, ?_⟩ <;> decide

theorem growSample_growable : Growable (growSample 16) 128 := by
  have hgroups : (plan (growSample 16).sb (partitionBlocks (growSample 16).sb 128)).groups = 1 := by decide
  have hres : reservedGdt (growSample 16).sb = 0 := by decide
  refine ⟨by decide, by decide, by decide, fun g hpos hg => ?_, fun g hpos hg => ?_,
    fun hne => absurd hres hne⟩
  all_goals exact absurd (hgroups ▸ hg) (by omega)

/-! ## Results -/

theorem writeChecked_ends {sector count : Nat} {buf : Buf} :
    Ends (writeChecked sector count buf) d fun _ d' => d' = d.overwrite (sector * 512) (count * 512) buf := by
  exact Try.WP.mono (writeChecked_wp (fun _ _ => trivial) trivial trivial) fun _ _ h => h.1

theorem ext2Grow_ends {target : Nat} (hc : CleanFs sectors d) (hs : Shaped d) : Ends (ext2Grow target) d fun _ d' =>
    d' = d ∧ partitionBlocks d.sb target ≤ (geometry d.sb).blocks ∨
    ∃ p s d₁, (Planned d.sb p ∧ p.targetBlocks ≤ target / spb) ∧ Grown d p s d₁ d' ∧ d'.size = d.size := by
  rw [ext2Grow]
  split
  · exact Try.WP.throw trivial
  refine Try.WP.bind (Safe.orFail _ (growRead_safe (K := fun _ => True) trivial)).ends fun sb d₁ h1 => ?_
  obtain ⟨rfl, hread⟩ := h1
  obtain rfl : sb = d₁.sb := hread
  rw [growFs]
  split
  · exact Try.WP.throw trivial
  split
  · exact Try.WP.throw trivial
  split
  · exact Try.WP.throw trivial
  split
  · rename_i hmore
    exact Try.WP.pure (.inl ⟨rfl, hmore⟩)
  rename_i hmore
  split
  · exact Try.WP.throw trivial
  obtain ⟨hp, hle, -⟩ := plan_planned hc.bpg_pos (hc.blocks_le_bpg hs.groups) (Nat.lt_of_not_le hmore)
  have hbody := growBody_safe hc hs hp (LaidBelow.lasting hc hs) (fun _ _ => trivial) (fun d₂ h hf =>
      ⟨h.below hc hs (hf.block 1 ?_), fun hres => (hs.refers hc h hf hres).1⟩) fun _ _ _ _ _ _ _ => trivial
  · refine Try.WP.bind hbody.ends fun sb1 d₂ h2 => ?_
    obtain ⟨s, d3, ⟨hdesc, hlaid, -⟩, rfl, rfl⟩ := h2
    refine Try.WP.bind (Try.WP.adapt writeChecked_ends) fun _ d4 h4 => Try.WP.pure (.inr ⟨_, s,
      d3.overwrite (1 * spb * 512) (spb * 512) (blockAt d₁ 1), ⟨hp, hle⟩, ?_, ?_⟩)
    · rw [h4]
      exact grown_of_writes hlaid hdesc fun b hb => (blockAt_overwrite_ne (by omega)).symm
    · rw [h4]
      exact hlaid.kept.size
  · have habove := hs.above.1
    have hone := hc.one
    have hbpg := hc.blocks_le_bpg hs.groups
    omega

/-- If `ext2_grow` returns 0, the check returns 0 on the image as before, the file system has
no more blocks than fit in `target`, or as many as it had, and the blocks of its files are as
they were. -/
theorem grow_consistent {target : Nat} {σ : Nat → Choice} {t : Totals} {d' : Disk} {grown : Nat}
    (hcheck : (ext2Repair sectors false).run.exec (fun _ => .ok) d = (.ok (false, t), d)) (hs : Shaped d)
    (htarget : target ≤ sectors) (hdev : sectors * 512 ≤ d.size)
    (h : (ext2Grow target).run.exec σ d = (.ok grown, d')) :
    (∃ t', (ext2Repair sectors false).run.exec (fun _ => .ok) d' = (.ok (false, t'), d')) ∧
    (geometry d'.sb).blocks ≤ max (target / spb) (geometry d.sb).blocks ∧
    ∀ i, AllocatedOn d i → ∀ b ∈ reached d (geometry d.sb) (blockAt d 1) (i + 1), blockAt d' b = blockAt d b := by
  have hc := cleanFs_of_check hcheck
  have hwp : Ends (ext2Grow target) d _ := ext2Grow_ends hc hs
  have hend := WP.exec_done hwp (allows_all σ)
  rw [h] at hend
  rcases hend with ⟨rfl, -⟩ | ⟨p, s, d₁, ⟨hp, hle⟩, hgrown, hsize⟩
  · exact ⟨⟨t, hcheck⟩, le_max_right _ _, fun _ _ _ _ => rfl⟩
  · have hroom : p.targetBlocks * spb ≤ sectors := by
      have := Nat.div_mul_le_self target spb
      have := Nat.mul_le_mul_right spb hle
      omega
    have hclean := (hgrown.extended hc hs hp hroom).cleanFs hc hs.groups hs.inodes
    obtain ⟨t', hrun, -⟩ := hclean.check (hsize ▸ hdev) false
    refine ⟨⟨t', hrun⟩, ?_, fun i hi b hb => hgrown.reached hc hs hi hb⟩
    rw [(hgrown.counts hc hs hp).1]
    exact le_max_of_le_left hle

/-- A second group is added, with a copy of the reserved block. -/
theorem grow_consistent_sample : ∃ t n d', (ext2Grow 128).run.exec (fun _ => .ok) (resizeSample 11 0x81) = (.ok n, d') ∧
    (ext2Repair 128 false).run.exec (fun _ => .ok) d' = (.ok (false, t), d') := by
  have hdev : 128 * 512 ≤ (resizeSample 11 0x81).size := show 128 * 512 ≤ 16 * bs by decide
  obtain ⟨t, hrun⟩ := (checksClean_iff hdev).mpr (show _ = some false by decide +kernel)
  have hshaped : Shaped (resizeSample 11 0x81) := by
    refine ⟨?_, ?_, ?_, ?_, ?_⟩ <;> decide +kernel
  have hgrow := ext2Grow_exec (d := resizeSample 11 0x81) 128 (by decide +kernel) (by decide +kernel)
  obtain ⟨⟨t', hrun'⟩, -, -⟩ := grow_consistent hrun hshaped (le_refl 128) hdev hgrow
  exact ⟨t', _, _, hgrow, hrun'⟩

/-- The check returns 0 on the image and `ext2_grow` does, and then the check does not. -/
def Breaks (sectors : Nat) (d : Disk) : Prop :=
  ChecksClean sectors d ∧ ∃ n d', (ext2Grow sectors).run.exec (fun _ => .ok) d = (.ok n, d') ∧ ¬ ChecksClean sectors d'

theorem breaks_of_eval (h : sectors * 512 ≤ d.size ∧
    ((ext2Repair sectors false).run.exec (fun _ => .ok) d).1.toOption.map Prod.fst = some false ∧
    Enlarges d.sb sectors ∧ Ready d (plan d.sb (partitionBlocks d.sb sectors)) ∧
    ((ext2Repair sectors false).run.exec (fun _ => .ok)
      (grownImage (plan d.sb (partitionBlocks d.sb sectors)) d)).1.toOption.map Prod.fst ≠ some false) :
    Breaks sectors d := by
  obtain ⟨hdev, hclean, henl, hready, hbad⟩ := h
  refine ⟨(checksClean_iff hdev).mpr hclean, _, _, ext2Grow_exec _ henl hready, fun h => ?_⟩
  obtain ⟨t, hrun⟩ := h
  rw [hrun] at hbad
  exact hbad rfl

/-- A target with less blocks than the file system has: nothing is done, and 0 is returned. -/
theorem growSample_smaller : ∃ n d', (ext2Grow 8).run.exec (fun _ => .ok) (growSample 16) = (.ok n, d') ∧
    8 / spb < (geometry d'.sb).blocks := by
  have heval : ((ext2Grow 8).run.exec (fun _ => .ok) (growSample 16)).1.toOption = some 64 := by decide +kernel
  have hdisk : 8 / spb < (geometry (Disk.sb ((ext2Grow 8).run.exec (fun _ => .ok) (growSample 16)).2)).blocks := by
    decide +kernel
  rcases hrun : (ext2Grow 8).run.exec (fun _ => .ok) (growSample 16) with ⟨e | n, d'⟩
  · rw [hrun] at heval
    cases heval
  · rw [hrun] at hdisk
    exact ⟨n, d', rfl, hdisk⟩

/-- The bound on the number of blocks does not hold without the old one, and none of the
conditions on the layout can be left out: for each there is an image that meets the others
and breaks. -/
theorem grow_consistent_not :
    (ChecksClean 128 (growSample 16) ∧ Shaped (growSample 16) ∧
      ∃ n d', (ext2Grow 8).run.exec (fun _ => .ok) (growSample 16) = (.ok n, d') ∧ 8 / spb < (geometry d'.sb).blocks) ∧
    (OneGroup lowSample ∧ ¬ AboveGdt (blockAt lowSample 1) ∧ SevenReserved lowSample ∧ DindInside lowSample ∧
      ReservedFirst lowSample ∧ Breaks 128 lowSample) ∧
    (OneGroup (resizeSample 5 0xa1) ∧ AboveGdt (blockAt (resizeSample 5 0xa1) 1) ∧
      ¬ SevenReserved (resizeSample 5 0xa1) ∧
      DindInside (resizeSample 5 0xa1) ∧ ReservedFirst (resizeSample 5 0xa1) ∧ Breaks 128 (resizeSample 5 0xa1)) ∧
    (OneGroup farSample ∧ AboveGdt (blockAt farSample 1) ∧ SevenReserved farSample ∧ ¬ DindInside farSample ∧
      ReservedFirst farSample ∧ Breaks 1024 farSample) ∧
    OneGroup tableSample ∧ AboveGdt (blockAt tableSample 1) ∧ SevenReserved tableSample ∧ DindInside tableSample ∧
      ¬ ReservedFirst tableSample ∧ Breaks 128 tableSample := by
  refine ⟨⟨growSample_clean (.inr rfl), (growSample_standard (.inr rfl)).toShaped, growSample_smaller⟩,
    ⟨?_, ?_, ?_, ?_, ?_, breaks_of_eval ?_⟩, ⟨?_, ?_, ?_, ?_, ?_, breaks_of_eval ?_⟩,
    ⟨?_, ?_, ?_, ?_, ?_, breaks_of_eval ?_⟩, ?_, ?_, ?_, ?_, ?_, breaks_of_eval ?_⟩
  all_goals decide +kernel

end Lorica.Proof.Install
