import Lorica.Proof.Install.Reconcile

/-!
# ext2_repair: the file system after a repair

The check marks the metadata first, so that no block that an inode reaches is one of those
that the repair writes: the two superblock sectors, block 1 and the bitmaps
(`Checked`). The inodes and what they reach are on the resulting image as they were
(`reached_eq`), and there the bitmaps and the counters fit (`repair_sound`).
-/

namespace Lorica

/-- The superblock. -/
def Disk.sb (d : Disk) : Buf := d.slice (2 * 512) (2 * 512)

end Lorica

namespace Lorica.Proof.Install

open Lorica.Impl.Install Disk List

variable {d d' : Disk} {r : Repair} {geo : Geometry} {gdt : Buf} {g g' : Nat}

/-! ## The metadata of the groups -/

theorem blockBitmap_mem : blockBitmap gdt g ∈ groupMeta geo gdt g := by simp [groupMeta]

theorem inodeBitmap_mem : inodeBitmap gdt g ∈ groupMeta geo gdt g := by simp [groupMeta]

variable {b sectors i len : Nat} {s : Totals} {r r' : Repair} {order : List Nat} {sb : Buf}

theorem table_mem (h : inodeTable gdt g ≤ b) (h' : b < inodeTable gdt g + geo.inodeTableBlocks) :
    b ∈ groupMeta geo gdt g :=
  mem_append_right _ (mem_range'_1.mpr ⟨h, h'⟩)

theorem low_mem (h : b < prefixEnd gdt 0) : b ∈ groupMeta geo gdt 0 := by
  have hb : b ∈ range' (groupStart geo 0) (prefixEnd gdt 0 - groupStart geo 0) := by
    rw [mem_range'_1, groupStart]
    omega
  rw [groupMeta, append_assoc, append_assoc]
  exact mem_append_left _ hb

theorem groupMeta_sub (hg : g < geo.groups) (h : b ∈ groupMeta geo gdt g) : b ∈ metadata geo gdt :=
  mem_flatMap.mpr ⟨g, mem_range.mpr hg, h⟩

section

variable (hn : (metadata geo gdt).Nodup)

include hn

theorem groupMeta_nodup (hg : g < geo.groups) : (groupMeta geo gdt g).Nodup :=
  (nodup_flatMap.mp hn).1 g (mem_range.mpr hg)

variable {b : Nat}

/-- Different groups have different blocks. -/
theorem groupMeta_apart (hg : g < geo.groups) (hg' : g' < geo.groups) (h : b ∈ groupMeta geo gdt g)
    (h' : b ∈ groupMeta geo gdt g') : g = g' := by
  by_contra hne
  have hsymm : Std.Symm (Function.onFun List.Disjoint (groupMeta geo gdt)) := ⟨fun _ _ h => List.Disjoint.symm h⟩
  exact (nodup_flatMap.mp hn).2.forall (mem_range.mpr hg) (mem_range.mpr hg') hne h h'

theorem bitmaps_ne (hg : g < geo.groups) (hg' : g' < geo.groups) :
    blockBitmap gdt g ≠ inodeBitmap gdt g' := fun heq => by
  obtain rfl := groupMeta_apart hn hg hg' blockBitmap_mem (heq ▸ inodeBitmap_mem)
  have := groupMeta_nodup hn hg
  rw [groupMeta, append_assoc, append_assoc] at this
  have hrest := (nodup_append.mp this).2.1
  simp [heq] at hrest

/-- A block of an inode table is no bitmap. -/
theorem table_ne (hg : g < geo.groups) (hg' : g' < geo.groups) (h : inodeTable gdt g ≤ b)
    (h' : b < inodeTable gdt g + geo.inodeTableBlocks) : b ≠ blockBitmap gdt g' ∧ b ≠ inodeBitmap gdt g' := by
  have hmem : b ∈ groupMeta geo gdt g := table_mem h h'
  have htable : b ∈ range' (inodeTable gdt g) geo.inodeTableBlocks := mem_range'_1.mpr ⟨h, h'⟩
  have hsplit := nodup_append.mp (groupMeta_nodup hn hg)
  constructor
  · rintro rfl
    obtain rfl := groupMeta_apart hn hg hg' hmem blockBitmap_mem
    exact hsplit.2.2 _ (by simp) _ htable rfl
  · rintro rfl
    obtain rfl := groupMeta_apart hn hg hg' hmem inodeBitmap_mem
    exact hsplit.2.2 _ (by simp) _ htable rfl

/-- The blocks before the first bitmap are neither bitmaps nor in an inode table. -/
theorem low_ne (h0 : 0 < geo.groups) (hg : g < geo.groups) (hb : b < prefixEnd gdt 0) :
    b ≠ blockBitmap gdt g ∧ b ≠ inodeBitmap gdt g ∧
      ∀ x, inodeTable gdt g ≤ x → x < inodeTable gdt g + geo.inodeTableBlocks → b ≠ x := by
  have hle : ∀ x, x ∈ groupMeta geo gdt g → prefixEnd gdt g ≤ x → b ≠ x := fun x hx hle heq => by
    obtain rfl := groupMeta_apart hn h0 hg (low_mem hb) (heq ▸ hx)
    omega
  refine ⟨hle _ blockBitmap_mem ?_, hle _ inodeBitmap_mem ?_, fun x h h' => hle x (table_mem h h') ?_⟩
  all_goals rw [prefixEnd]; omega

end

/-! ## What the inodes reach -/

theorem under_congr {depth p : Nat} (h : ∀ b ∈ under d depth p, blockAt d' b = blockAt d b) :
    under d' depth p = under d depth p := by
  induction depth generalizing p with
  | zero => rfl
  | succ depth ih =>
    rw [under] at h ⊢
    rw [under]
    split
    · rfl
    rename_i hp
    rw [if_neg hp] at h
    have hhead := h p mem_cons_self
    refine congrArg (cons p) (flatMap_congr fun i hi => ?_)
    rw [hhead]
    exact ih fun b hb => h b (mem_cons_of_mem _ (mem_flatMap.mpr ⟨i, hi, hb⟩))

theorem leavesOf_congr {depth p : Nat} (h : ∀ b ∈ under d depth p, blockAt d' b = blockAt d b) :
    leavesOf d' depth p = leavesOf d depth p := by
  induction depth generalizing p with
  | zero => rfl
  | succ depth ih =>
    rw [under] at h
    rw [leavesOf, leavesOf]
    split
    · rfl
    rename_i hp
    rw [if_neg hp] at h
    have hhead := h p mem_cons_self
    refine flatMap_congr fun i hi => ?_
    rw [hhead]
    exact ih fun b hb => h b (mem_cons_of_mem _ (mem_flatMap.mpr ⟨i, hi, hb⟩))

/-- The blocks of an inode are the same on a disk that is the same there. -/
theorem blocksOf_congr {inode : Buf} (h : ∀ b ∈ blocksOf d inode, blockAt d' b = blockAt d b) :
    blocksOf d' inode = blocksOf d inode ∧ fileBlocks d' inode = fileBlocks d inode := by
  rw [blocksOf, forall_mem_append, forall_mem_append] at h
  obtain ⟨⟨-, h1⟩, h2⟩ := h
  refine ⟨?_, ?_⟩
  · rw [blocksOf, under_congr h1, under_congr h2]
    rfl
  · rw [fileBlocks, leavesOf_congr h1, leavesOf_congr h2]
    rfl

/-! ## The check -/

/-- What the variables of the check are when all inodes have been scanned. -/
structure Analysed (d : Disk) (sectors : Nat) (r : Repair) : Prop where
  device : r.sectors = sectors
  sb : r.sb = d.sb
  gdt : r.gdt = blockAt d 1
  geometry : r.geo = geometry d.sb
  supported : supported d.sb
  valid : validGeometry sectors r.geo
  groups : validGroups r.geo
  one : 1 < r.blocks
  placed : ∀ g < r.groups, Placed r.geo r.gdt g
  closed : ∀ i < r.inodes, bit r.inodeAlloc i = true → bit r.scanned i = true
  onDisk : ∀ k, OnDisk d r.geo r.gdt k → bit r.inodeAlloc k = true
  same : r.missingInodes = 0 → ∀ k, bit r.inodeAlloc k = true → OnDisk d r.geo r.gdt k

/-- What the scan has come to: the inodes `order`, each once, with the blocks they reach. -/
structure Scanned (d : Disk) (r : Repair) (order : List Nat) : Prop where
  nodup : order.Nodup
  lt : ∀ i ∈ order, i < r.inodes
  scanned : ∀ i, bit r.scanned i = true ↔ i ∈ order
  alloc : ∀ i ∈ order, bit r.inodeAlloc i = true
  marked : Marked r.blocks (fun _ => 0)
    (metadata r.geo r.gdt ++ order.flatMap fun i => reached d r.geo r.gdt (i + 1)) r.blockRefs
  dirs : ∀ g, r.dirsPerGroup g =
    order.countP fun i => IsDirectory r.geo (i + 1) (inodeAt d r.geo r.gdt (i + 1)) ∧ i / r.ipg = g
  fit : ∀ i ∈ order, Fit d r.geo (i + 1) (inodeAt d r.geo r.gdt (i + 1))
  parsed : ∃ alloc, (∀ k, bit alloc k = true ↔ OnDisk d r.geo r.gdt k) ∧ ∀ i ∈ order,
    InScope r.geo (i + 1) (inodeAt d r.geo r.gdt (i + 1)) →
      modeOf (inodeAt d r.geo r.gdt (i + 1)) = sIfdir →
        ∀ p ∈ dirBlocks d (inodeAt d r.geo r.gdt (i + 1)), Parsed d alloc r p

theorem openFs_gets : Gets (openFs sectors) d (fun r =>
    r = ⟨Impl.Install.geometry d.sb, sectors, d.sb, blockAt d 1, fun _ => 0, fun _ => 0, fun _ => 0,
      fun _ => 0, 0, 0, 0, 0, fun _ => 0, []⟩ ∧ Impl.Install.supported d.sb ∧
      validGeometry sectors r.geo ∧ validGroups r.geo ∧ 1 < r.blocks) := by
  refine .bind (.orFail _ rwRead_gets) fun sb hsb => ?_
  obtain rfl : sb = d.sb := hsb
  split
  · dsimp only
    split
    · split
      · refine .bind (.orFail _ readBlock_gets) fun block hb =>
          .pure ⟨?_, by assumption, by assumption, by assumption, hb.1⟩
        rw [hb.2]
      · exact .fail _
    · exact .fail _
  · exact .fail _

theorem countSuper_like : Like s.r (countSuper s).r ∧ (countSuper s).r.gdt = s.r.gdt ∧
    (countSuper s).r.missingBlocks = s.r.missingBlocks ∧ (countSuper s).freeBlocks = s.freeBlocks ∧
    (countSuper s).freeInodes = s.freeInodes := by
  rw [countSuper]
  split <;> exact ⟨⟨rfl, rfl, rfl, rfl, rfl, rfl, rfl, rfl, rfl⟩, rfl, rfl, rfl, rfl⟩

theorem countSuper_counters : (countSuper s).r.counterMismatches = 0 ↔
    s.r.counterMismatches = 0 ∧ r32 s.r.sb 12 = s.freeBlocks ∧ r32 s.r.sb 16 = s.freeInodes := by
  rw [countSuper]
  split
  · exact ⟨fun h => absurd h (Nat.succ_ne_zero _), fun h => absurd h.2 (by omega)⟩
  · rename_i heq
    rw [not_or, not_not, not_not] at heq
    exact ⟨fun h => ⟨h, heq⟩, fun h => h.1⟩

/-- The maps to be depend on the marks, the descriptors and the geometry only. -/
theorem fills_congr (h : Like r r') (hgdt : r'.gdt = r.gdt) (g : Nat) :
    blockFill d r' g = blockFill d r g ∧ inodeFill d r' g = inodeFill d r g := by
  rw [blockFill, inodeFill, inodeFill, hgdt, h.geometry, h.blockRefs, h.inodeAlloc]
  exact ⟨rfl, rfl⟩

/-- What the check knows when it ends well. -/
structure Checked (d : Disk) (sectors : Nat) (s : Totals) : Prop extends Analysed d sectors s.r where
  clean : s.r.missingBlocks = 0 ↔ ∀ g < s.r.groups, (blockFill d s.r g).fixed = 0
  counters : s.r.counterMismatches = 0 ↔ (∀ g < s.r.groups,
    Counters s.r.gdt g (blockFill d s.r g).free (inodeFill d s.r g).free (s.r.dirsPerGroup g)) ∧
    r32 s.r.sb 12 = s.freeBlocks ∧ r32 s.r.sb 16 = s.freeInodes
  freeBlocks : s.freeBlocks = ∑ g ∈ Finset.range s.r.groups, (blockFill d s.r g).free
  freeInodes : s.freeInodes = ∑ g ∈ Finset.range s.r.groups, (inodeFill d s.r g).free
  scan : ∃ order, Scanned d s.r order

theorem Analysed.like (h : Analysed d sectors r) (hl : Like r r') (hgdt : r'.gdt = r.gdt) :
    Analysed d sectors r' := by
  obtain ⟨h1, h2, h3, h4, h5, h6, h7, h8, h9, h10, h11, h12⟩ := h
  refine ⟨hl.sectors.trans h1, hl.sb.trans h2, hgdt.trans h3, hl.geometry.trans h4, h5, ?_, ?_, ?_, ?_, ?_, ?_, ?_⟩
  all_goals simp only [hl.geometry, hl.inodeAlloc, hl.scanned, hl.missingInodes, hgdt]
  all_goals assumption

theorem Scanned.like (h : Scanned d r order) (hl : Like r r') (hgdt : r'.gdt = r.gdt) : Scanned d r' order := by
  obtain ⟨h1, h2, h3, h4, h5, h6, h7, h8⟩ := h
  refine ⟨h1, ?_, ?_, ?_, ?_, ?_, ?_, ?_⟩
  all_goals simp only [Parsed, hl.geometry, hl.inodeAlloc, hl.scanned, hl.blockRefs, hl.dirs, hl.parsed, hgdt]
  all_goals assumption

/-- The variables after `scan_all`, from those after each step. -/
theorem analysed_of_steps {r0 r1 r2 r3 : Repair}
    (h0 : r0 = ⟨Impl.Install.geometry d.sb, sectors, d.sb, blockAt d 1, fun _ => 0, fun _ => 0,
      fun _ => 0, fun _ => 0, 0, 0, 0, 0, fun _ => 0, []⟩)
    (hsup : supported d.sb) (hvalid : validGeometry sectors r0.geo)
    (hgroups : validGroups r0.geo) (hone : 1 < r0.blocks)
    (hplaced : ∀ g < r0.groups, Placed r0.geo r0.gdt g) (h1 : OnlyMarked r0 (metadata r0.geo r0.gdt) r1)
    (h2 : ∃ block alloc, r2 = { r1 with block := block, inodeAlloc := alloc } ∧ ∀ k, bit alloc k = true ↔
      bit r1.inodeAlloc k = true ∨ OnDisk d r1.geo r1.gdt k ∧ k / r1.ipg < r1.groups)
    (h3 : ScannedAll d r2 order r3)
    (hclosed : ∀ i < r2.inodes, bit r3.inodeAlloc i = true → bit r3.scanned i = true) :
    Analysed d sectors r3 ∧ Scanned d r3 order ∧ r3.missingBlocks = 0 ∧ r3.counterMismatches = 0 := by
  obtain ⟨block, alloc, rfl, halloc⟩ := h2
  obtain ⟨hr1, hmeta⟩ := h1
  obtain ⟨hwalk, hnodup, hfresh, hscanned, hin, hdirs, hfit, hparsed⟩ := h3
  obtain ⟨hgeo, hsec, hsb, hgdt, -, -, hmb, hcm, hmark, hgrow, -, hsame, -⟩ := hwalk
  have hgeo1 : r1.geo = r0.geo := by rw [hr1]
  have hgdt1 : r1.gdt = r0.gdt := by rw [hr1]
  have hdisk : ∀ k, bit alloc k = true ↔ OnDisk d r0.geo r0.gdt k := fun k => by
    have hzero : bit r1.inodeAlloc k = false := by
      rw [hr1, h0]
      exact bit_zero
    rw [halloc, hgeo1, hgdt1, hzero]
    refine ⟨fun h => (h.resolve_left Bool.false_ne_true).1, fun h => .inr ⟨h, ?_⟩⟩
    exact Nat.div_lt_of_lt_mul (lt_of_lt_of_le h.1 (Nat.mul_comm _ _ ▸ hgroups.2.2.2.1))
  have hscan0 : ∀ i, bit r1.scanned i = false := fun i => by
    rw [hr1, h0]
    exact bit_zero
  have hgeo3 : r3.geo = r0.geo := hgeo.trans hgeo1
  have hgdt3 : r3.gdt = r0.gdt := hgdt.trans hgdt1
  simp only [hgeo1, hgdt1] at hdirs hfit hparsed
  refine ⟨⟨?_, ?_, ?_, ?_, hsup, ?_, ?_, ?_, ?_, ?_, fun k hk => ?_, fun hz k hk => ?_⟩,
    ⟨hnodup, fun i hi => ?_, fun i => ?_, hin, ?_, fun g => ?_, ?_, ?_⟩, ?_, ?_⟩
  · rw [hsec, hr1, h0]
  · rw [hsb, hr1, h0]
  · rw [hgdt3, h0]
  · rw [hgeo3, h0]
  · rwa [hgeo3]
  · rwa [hgeo3]
  · rwa [hgeo3]
  · rwa [hgeo3, hgdt3]
  · rw [hgeo3]
    intro i hi
    exact hclosed i (hgeo1 ▸ hi)
  · rw [hgeo3, hgdt3] at hk
    exact hgrow k ((hdisk k).mpr hk)
  · have hz1 : r1.missingInodes = 0 := by rw [hr1, h0]
    rw [hsame (hz.trans hz1.symm)] at hk
    rw [hgeo3, hgdt3]
    exact (hdisk k).mp hk
  · rw [hgeo]
    exact (hfresh i hi).2
  · rw [hscanned, hscan0 i]
    exact ⟨fun h => h.resolve_left Bool.false_ne_true, .inr⟩
  · rw [hgeo3, hgdt3]
    have hz : r0.blockRefs = fun _ => 0 := by rw [h0]
    rw [hz] at hmeta
    simp only [hgeo1, hgdt1] at hmark
    exact hmeta.append hmark
  · have hzero : r1.dirsPerGroup g = 0 := by rw [hr1, h0]
    rw [hdirs, hgeo3, hgdt3, hzero, Nat.zero_add]
  · rwa [hgeo3, hgdt3]
  · rw [hgeo3, hgdt3]
    exact ⟨alloc, hdisk, hparsed⟩
  · rw [hmb, hr1, h0]
  · rw [hcm, hr1, h0]

theorem check_gets : Gets (check sectors) d (Checked d sectors) := by
  refine .bind openFs_gets fun r0 h0 => .bind (markMetadata_gets.and markMetadata_placed) fun r1 h1 => ?_
  obtain ⟨hr0, hsup, hvalid, hgroups, hone⟩ := h0
  obtain ⟨h1, hplaced⟩ := h1
  have hipg : 0 < r1.ipg := by
    rw [h1.geometry]
    exact hvalid.2.2.2.1
  refine .bind (loadInodeMaps_gets hipg) fun r2 h2 => .bind scanAll_gets fun r3 h3 => .bind reconcile_gets fun s hs =>
    .pure ?_
  obtain ⟨⟨order, hall⟩, hclosed⟩ := h3
  obtain ⟨han, hscan, hmb, hcm⟩ := analysed_of_steps hr0 hsup hvalid hgroups hone hplaced h1 h2 hall hclosed
  obtain ⟨hlike, hgdt, hmissing, hfb, hfi⟩ := countSuper_like (s := s)
  have hl : Like r3 (countSuper s).r :=
    ⟨hlike.geometry.trans hs.like.geometry, hlike.sectors.trans hs.like.sectors, hlike.sb.trans hs.like.sb,
      hlike.blockRefs.trans hs.like.blockRefs, hlike.inodeAlloc.trans hs.like.inodeAlloc,
      hlike.scanned.trans hs.like.scanned, hlike.dirs.trans hs.like.dirs,
      hlike.missingInodes.trans hs.like.missingInodes, hlike.parsed.trans hs.like.parsed⟩
  have hg : (countSuper s).r.gdt = r3.gdt := hgdt.trans hs.gdt
  have hfill := fills_congr (d := d) hl hg
  refine ⟨han.like hl hg, ?_, ?_, ?_, ?_, order, hscan.like hl hg⟩
  · have hclean := hs.clean
    rw [hmb] at hclean
    simp only [hmissing, hclean, hl.geometry, fun g => (hfill g).1]
  · have hcounters := hs.counters
    rw [hcm] at hcounters
    rw [countSuper_counters, hcounters, hlike.sb, hfb, hfi, hg]
    simp only [hl.geometry, hl.dirs, fun g => (hfill g).1, fun g => (hfill g).2]
  · simp only [hfb, hs.freeBlocks, hl.geometry, fun g => (hfill g).1]
  · simp only [hfi, hs.freeInodes, hl.geometry, fun g => (hfill g).2]

/-! ## The repair -/

theorem blockAt_super (hb : b ≠ 0) : blockAt (d.overwrite (2 * 512) (2 * 512) sb) b = blockAt d b := by
  refine slice_congr fun i hi hi' => overwrite_out ?_
  simp only [spb] at hi
  omega

theorem superblock_overwrite (hi : i < 2 * 512) : (d.overwrite (2 * 512) (2 * 512) sb).sb i = sb i := by
  rw [Disk.sb, slice_of_lt hi, overwrite_in (by omega) (by omega), Nat.add_sub_cancel_left]

/-- The geometry is not where the counters and the flags are. -/
theorem geometry_congr {sb' : Buf}
    (h : ∀ i < 2 * 512, i < 12 ∨ 20 ≤ i → i < 58 ∨ 60 ≤ i → sb' i = sb i) : geometry sb' = geometry sb := by
  have h32 : ∀ o, o + 4 ≤ 12 ∨ 20 ≤ o ∧ o + 4 ≤ 58 ∨ 60 ≤ o ∧ o < 500 → r32 sb' o = r32 sb o := fun o ho =>
    r32_congr fun i hi => h _ (by omega) (by omega) (by omega)
  have h88 : r16 sb' 88 = r16 sb 88 :=
    r16_congr (h _ (by omega) (by omega) (by omega)) (h _ (by omega) (by omega) (by omega))
  simp only [geometry, h32 0 (by omega), h32 4 (by omega), h32 32 (by omega), h32 40 (by omega), h32 84 (by omega), h88]

theorem supported_congr {sb' : Buf}
    (h : ∀ i < 2 * 512, i < 12 ∨ 20 ≤ i → i < 58 ∨ 60 ≤ i → sb' i = sb i) : supported sb' ↔ supported sb := by
  have h32 : ∀ o, 20 ≤ o ∧ o + 4 ≤ 58 ∨ 60 ≤ o ∧ o < 500 → r32 sb' o = r32 sb o := fun o ho =>
    r32_congr fun i hi => h _ (by omega) (by omega) (by omega)
  have h56 : r16 sb' 56 = r16 sb 56 :=
    r16_congr (h _ (by omega) (by omega) (by omega)) (h _ (by omega) (by omega) (by omega))
  simp only [supported, h56, h32 24 (by omega), h32 20 (by omega), h32 96 (by omega), h32 100 (by omega),
    h32 92 (by omega)]

/-- The superblock says that the file system is valid, and has no errors. -/
def StateClean (sb : Buf) : Prop := r16 sb 58 &&& 1 ≠ 0 ∧ r16 sb 58 &&& 2 = 0

/-- The image after a check or a repair that ends well. -/
structure Mended (d : Disk) (r : Repair) (d' : Disk) : Prop where
  size : d'.size = d.size
  supported : supported d'.sb
  state : StateClean d'.sb
  geometry : Impl.Install.geometry d'.sb = r.geo
  places : ∀ g < r.groups, blockBitmap (blockAt d' 1) g = blockBitmap r.gdt g ∧
    inodeBitmap (blockAt d' 1) g = inodeBitmap r.gdt g ∧ inodeTable (blockAt d' 1) g = inodeTable r.gdt g
  other : ∀ b, b ≠ 0 → b ≠ 1 → (∀ g < r.groups, b ≠ blockBitmap r.gdt g ∧ b ≠ inodeBitmap r.gdt g) →
    blockAt d' b = blockAt d b
  blocks : ∀ g < r.groups, ∀ k < bs * 8, bit (blockAt d' (blockBitmap r.gdt g)) k = bit (blockFill d r g).map k
  inodes : ∀ g < r.groups, ∀ k < bs * 8, bit (blockAt d' (inodeBitmap r.gdt g)) k = bit (inodeFill d r g).map k
  counters : ∀ g < r.groups,
    Counters (blockAt d' 1) g (blockFill d r g).free (inodeFill d r g).free (r.dirsPerGroup g)
  super : r32 d'.sb 12 = ∑ g ∈ Finset.range r.groups, (blockFill d r g).free ∧
    r32 d'.sb 16 = ∑ g ∈ Finset.range r.groups, (inodeFill d r g).free

/-- If no bit is missing, the bitmaps on the disk are those in memory. -/
theorem Checked.blockFill_bits (h : Checked d sectors s) (hmb : s.r.missingBlocks = 0)
    {g : Nat} (hg : g < s.r.groups) : (blockFill d s.r g).map = blockAt d (blockBitmap s.r.gdt g) :=
  (fillBits_spec s.r.blockRefs (groupStart s.r.geo g)
    (groupEnd s.r.geo g - groupStart s.r.geo g) 0 ⟨blockAt d (blockBitmap s.r.gdt g), 0, 0⟩).same
    (h.clean.mp hmb g hg)

theorem Checked.inodeFill_bits (h : Checked d sectors s) (hmi : s.r.missingInodes = 0)
    (g k : Nat) : bit (blockAt d (inodeBitmap s.r.gdt g)) k = bit (inodeFill d s.r g).map k := by
  have hspec := (fillBits_spec s.r.inodeAlloc (g * s.r.ipg) (groupInodes s.r.geo g) 0
    ⟨blockAt d (inodeBitmap s.r.gdt g), 0, 0⟩).bits k
  rw [Bool.eq_iff_iff, inodeFill, hspec]
  refine ⟨.inl, fun hor => hor.elim id fun hk' => ?_⟩
  have hon := (h.same hmi _ hk'.2.2).2
  have hin : ∃ j < groupInodes s.r.geo g, g * s.r.ipg + k = g * s.r.ipg + j ∧ j = k := ⟨k, by omega, rfl, rfl⟩
  obtain ⟨-, hdiv, hmod⟩ := (exists_groupInode s.r.geo h.valid.2.2.2.1).mp hin
  rwa [hdiv, hmod] at hon

/-- If there is nothing to repair, the image is as it should be. -/
theorem Checked.mended (h : Checked d sectors s) (hclean : needsRepair s.r = false) : Mended d s.r d := by
  simp only [needsRepair, Bool.or_eq_false_iff, bne_eq_false_iff_eq, beq_eq_false_iff_ne] at hclean
  obtain ⟨⟨⟨hstate, hmb⟩, hmi⟩, hcm⟩ := hclean
  obtain ⟨hcounters, h12, h16⟩ := h.counters.mp hcm
  refine ⟨rfl, h.supported, h.sb ▸ hstate, h.geometry.symm, fun g _ => ?_, fun _ _ _ _ => rfl,
    fun g hg k _ => ?_, fun g hg k hk => ?_, ?_, ?_, ?_⟩
  · rw [h.gdt]
    exact ⟨rfl, rfl, rfl⟩
  · rw [h.blockFill_bits hmb hg]
  · exact h.inodeFill_bits hmi g k
  · rw [← h.gdt]
    exact hcounters
  · rw [← h.sb, h12, h.freeBlocks]
  · rw [← h.sb, h16, h.freeInodes]

/-- The blocks that the repair writes are apart from each other and from what it reads. -/
theorem Scanned.separate (h : Scanned d r order) : Separate r := by
  have hn := (nodup_append.mp h.marked.nodup).1
  refine ⟨fun g hg g' hg' => bitmaps_ne hn hg hg', fun g hg g' hg' hne => ⟨fun heq => hne ?_, fun heq => hne ?_⟩⟩
  · exact groupMeta_apart hn hg hg' blockBitmap_mem (heq ▸ blockBitmap_mem)
  · exact groupMeta_apart hn hg hg' inodeBitmap_mem (heq ▸ inodeBitmap_mem)

/-- The bitmaps and the inode table of group 0 lie above block 1. -/
def AboveGdt (gdt : Buf) : Prop := 1 < blockBitmap gdt 0 ∧ 1 < inodeBitmap gdt 0 ∧ 1 < inodeTable gdt 0

instance (gdt : Buf) : Decidable (AboveGdt gdt) := inferInstanceAs (Decidable (_ ∧ _))

theorem AboveGdt.le (h : AboveGdt gdt) : 2 ≤ prefixEnd gdt 0 := by
  obtain ⟨h1, h2, h3⟩ := h
  rw [prefixEnd]
  omega

theorem Scanned.low_ne (h : Scanned d r order) (habove : AboveGdt r.gdt) (hg : g < r.groups)
    (hb : b ≤ 1) : b ≠ blockBitmap r.gdt g ∧ b ≠ inodeBitmap r.gdt g := by
  have hle := habove.le
  have := Install.low_ne (nodup_append.mp h.marked.nodup).1 (by omega) hg (show b < prefixEnd r.gdt 0 by omega)
  exact ⟨this.1, this.2.1⟩

/-- The superblock at the end. -/
theorem finishSuper_out (h : i < 12 ∨ 20 ≤ i) (h' : i < 58 ∨ 60 ≤ i) : (finishSuper s).r.sb i = s.r.sb i := by
  have heq : (finishSuper s).r.sb = w16 (w32 (w32 s.r.sb 12 s.freeBlocks) 16 s.freeInodes) 58 _ := rfl
  rw [heq, w16_out (by omega), w32_out (by omega), w32_out (by omega)]

theorem finishSuper_counters (hb : s.freeBlocks < 2 ^ 32) (hi : s.freeInodes < 2 ^ 32) :
    r32 (finishSuper s).r.sb 12 = s.freeBlocks ∧ r32 (finishSuper s).r.sb 16 = s.freeInodes := by
  have heq : (finishSuper s).r.sb = w16 (w32 (w32 s.r.sb 12 s.freeBlocks) 16 s.freeInodes) 58 _ := rfl
  have h58 : ∀ {o : Nat} {p : Buf} {v : Nat}, o + 4 ≤ 58 → r32 (w16 p 58 v) o = r32 p o := fun ho =>
    r32_congr fun i hi => w16_out (by omega)
  refine ⟨?_, ?_⟩
  · have h16 : r32 (w32 (w32 s.r.sb 12 s.freeBlocks) 16 s.freeInodes) 12 = r32 (w32 s.r.sb 12 s.freeBlocks) 12 :=
      r32_congr fun i hi => w32_out (by omega)
    rw [heq, h58 (by omega), h16, r32_w32 hb]
  · rw [heq, h58 (by omega), r32_w32 hi]

theorem finishSuper_state : StateClean (finishSuper s).r.sb := by
  have hbit : ∀ k, (r16 (finishSuper s).r.sb 58).testBit k = (decide (k < 16) &&
      (((r16 (w32 (w32 s.r.sb 12 s.freeBlocks) 16 s.freeInodes) 58).testBit k || Nat.testBit 1 k) &&
        Nat.testBit 0xfffd k)) := fun k => by
    rw [← Nat.testBit_or, ← Nat.testBit_and, ← Nat.testBit_mod_two_pow]
    exact congrArg (Nat.testBit · k) r16_w16
  refine ⟨?_, ?_⟩
  · show r16 (finishSuper s).r.sb 58 &&& 2 ^ 0 ≠ 0
    rw [Nat.and_two_pow, hbit]
    simp
  · show r16 (finishSuper s).r.sb 58 &&& 2 ^ 1 = 0
    rw [Nat.and_two_pow, hbit, show Nat.testBit 0xfffd 1 = false by decide]
    simp

theorem sum_lt {f : Nat → Nat} {n : Nat} (hn : n ≤ maxGroups) (h : ∀ g, f g < 65536) :
    ∑ g ∈ Finset.range n, f g < 2 ^ 32 := by
  have hle := Finset.sum_le_card_nsmul (Finset.range n) f 65535 fun g _ => by
    have := h g
    omega
  rw [Finset.card_range, smul_eq_mul] at hle
  simp only [maxGroups] at hn
  exact lt_of_le_of_lt hle (by omega)

/-- The writes of the repair, one after the other. -/
theorem mended_of_steps {s2 : Totals} {d1 d2 d3 d4 : Disk} (h : Checked d sectors s)
    (habove : AboveGdt s.r.gdt) (h₁ : d1 = d.overwrite (2 * 512) (2 * 512) (markInvalid s.r).sb)
    (h2 : Repaired d1 { markInvalid s.r with missingBlocks := 0, counterMismatches := 0 } s.r.groups s2 d2)
    (h3 : d3 = d2.overwrite (1 * spb * 512) (spb * 512) (countSuper s2).r.gdt)
    (h4 : d4 = d3.overwrite (2 * 512) (2 * 512) (finishSuper (countSuper s2)).r.sb) : Mended d s.r d4 := by
  obtain ⟨order, hscan⟩ := h.scan
  obtain ⟨hlike, hgdt, -, hfb, hfi⟩ := countSuper_like (s := s2)
  have hlow : ∀ g < s.r.groups, ∀ b ≤ 1, b ≠ blockBitmap s.r.gdt g ∧ b ≠ inodeBitmap s.r.gdt g :=
    fun g hg b hb => hscan.low_ne habove hg hb
  have hgr : s.r.groups * descSize ≤ bs := h.groups.2.2.1
  -- the first write of the superblock
  have hd1 : ∀ b, b ≠ 0 → blockAt d1 b = blockAt d b := fun b hb => h₁ ▸ blockAt_super hb
  have hfill : ∀ g < s.r.groups, blockFill d1 { markInvalid s.r with missingBlocks := 0, counterMismatches := 0 } g =
      blockFill d s.r g ∧ inodeFill d1 { markInvalid s.r with missingBlocks := 0, counterMismatches := 0 } g =
      inodeFill d s.r g := fun g hg => by
    have hb := hd1 _ (hlow g hg 0 (by omega)).1.symm
    have hi := hd1 _ (hlow g hg 0 (by omega)).2.symm
    refine ⟨?_, ?_⟩
    · rw [blockFill, blockFill, ← hb]
      rfl
    · rw [inodeFill, inodeFill, ← hi]
      rfl
  -- the last two writes
  have hd4 : ∀ b, b ≠ 0 → b ≠ 1 → blockAt d4 b = blockAt d2 b := fun b h0 h1 => by
    rw [h4, blockAt_super h0, h3, blockAt_overwrite_ne h1]
  have hgdt4 : ∀ i < bs, blockAt d4 1 i = s2.r.gdt i := fun i hi => by
    rw [h4, blockAt_super (by decide), h3, blockAt_overwrite hi, hgdt]
  have hsb4 : ∀ i < 2 * 512, d4.sb i = (finishSuper (countSuper s2)).r.sb i := fun i hi => by
    rw [h4, superblock_overwrite hi]
  have hword : ∀ g < s.r.groups, ∀ o < 32, blockAt d4 1 (g * descSize + o) = s2.r.gdt (g * descSize + o) :=
    fun g hg o ho => hgdt4 _ (by simp only [descSize] at hgr ⊢; omega)
  have hfree := finishSuper_counters (s := countSuper s2)
    (by
      rw [hfb, h2.freeBlocks]
      exact sum_lt h.groups.2.1 fun g => blockFill_lt h.valid.2.2.2.2.1)
    (by
      rw [hfi, h2.freeInodes]
      exact sum_lt h.groups.2.1 fun g => inodeFill_lt h.valid.2.2.2.2.2.1)
  have hold : ∀ i < 2 * 512, i < 12 ∨ 20 ≤ i → i < 58 ∨ 60 ≤ i → d4.sb i = d.sb i :=
    fun i hi hc hf => by
      rw [hsb4 i hi, finishSuper_out hc hf, hlike.sb, h2.like.sb, ← h.sb]
      exact w16_out (by omega)
  refine ⟨?_, (supported_congr hold).mpr h.supported, ?_, ?_, fun g hg => ?_, fun b h0 h1 hb => ?_, fun g hg k hk => ?_,
    fun g hg k hk => ?_, fun g hg => ?_, ?_, ?_⟩
  · rw [h4, h3, overwrite_size, overwrite_size, h2.size, h₁, overwrite_size]
  · have hstate := finishSuper_state (s := countSuper s2)
    rwa [StateClean, r16_congr (hsb4 58 (by omega)) (hsb4 59 (by omega))]
  · rw [h.geometry]
    exact geometry_congr hold
  · obtain ⟨hbb, hib, hit⟩ := h2.places g
    refine ⟨.trans ?_ hbb, .trans ?_ hib, .trans ?_ hit⟩
    · exact r32_congr fun i hi => hword g hg i (by omega)
    · refine r32_congr fun i hi => ?_
      rw [Nat.add_assoc]
      exact hword g hg _ (by omega)
    · refine r32_congr fun i hi => ?_
      rw [Nat.add_assoc]
      exact hword g hg _ (by omega)
  · rw [hd4 b h0 h1, h2.other b hb, hd1 b h0]
  · rw [hd4 _ (hlow g hg 0 (by omega)).1.symm (hlow g hg 1 (by omega)).1.symm, ← (hfill g hg).1]
    exact h2.blocks g hg k hk
  · rw [hd4 _ (hlow g hg 0 (by omega)).2.symm (hlow g hg 1 (by omega)).2.symm, ← (hfill g hg).2]
    exact h2.inodes g hg k hk
  · obtain ⟨hcb, hci, hcd⟩ := h2.counters g hg
    rw [(hfill g hg).1] at hcb
    rw [(hfill g hg).2] at hci
    refine ⟨.trans ?_ hcb, .trans ?_ hci, .trans ?_ hcd⟩
    · exact r16_congr (hword g hg 12 (by omega)) (hword g hg 13 (by omega))
    · exact r16_congr (hword g hg 14 (by omega)) (hword g hg 15 (by omega))
    · exact r16_congr (hword g hg 16 (by omega)) (hword g hg 17 (by omega))
  · rw [r32_congr fun i hi => hsb4 (12 + i) (by omega), hfree.1, hfb, h2.freeBlocks]
    exact Finset.sum_congr rfl fun g hg => congrArg Fill.free (hfill g (Finset.mem_range.mp hg)).1
  · rw [r32_congr fun i hi => hsb4 (16 + i) (by omega), hfree.2, hfi, h2.freeInodes]
    exact Finset.sum_congr rfl fun g hg => congrArg Fill.free (hfill g (Finset.mem_range.mp hg)).2

/-- A group has no more directories than inodes. -/
theorem Scanned.dirs_lt (h : Scanned d r order) (hipg : 0 < r.ipg) (hle : r.ipg ≤ bs * 8) (g : Nat) :
    r.dirsPerGroup g < 65536 := by
  have hsub : ∀ i ∈ order.filter fun i =>
      IsDirectory r.geo (i + 1) (inodeAt d r.geo r.gdt (i + 1)) ∧ i / r.ipg = g,
      i ∈ range' (g * r.ipg) r.ipg := fun i hi => by
    obtain ⟨-, -, hg⟩ := (mem_filter.mp hi).imp_right of_decide_eq_true
    have hdiv := Nat.div_add_mod' i r.ipg
    have hmod := Nat.mod_lt i hipg
    rw [hg] at hdiv
    exact mem_range'_1.mpr (by omega)
  have hlen := ((h.nodup.filter _).subperm hsub).length_le
  rw [length_range'] at hlen
  rw [h.dirs, countP_eq_length_filter]
  simp only [bs] at hle
  omega

theorem applyRepair_ends (h : Checked d sectors s) (habove : AboveGdt s.r.gdt) :
    Ends (applyRepair s.r) d (fun s' d' =>
      Mended d s.r d' ∧ s'.r.scanned = s.r.scanned ∧ s'.r.parsed = s.r.parsed) := by
  obtain ⟨order, hscan⟩ := h.scan
  have hsep := hscan.separate
  refine Try.WP.bind (Try.WP.adapt writeCompared_ends) fun _ d1 h1 => ?_
  refine Try.WP.bind (reconcile_ends h.valid.2.2.2.2.1 h.valid.2.2.2.2.2.1
    (hscan.dirs_lt h.valid.2.2.2.1 h.valid.2.2.2.2.2.1) ⟨hsep.maps, hsep.groups⟩) fun s2 d2 h2 => ?_
  refine Try.WP.bind writeBlock_ends fun _ d3 h3 => ?_
  refine Try.WP.bind (Try.WP.adapt writeCompared_ends) fun _ d4 h4 => Try.WP.pure ⟨?_, ?_, ?_⟩
  · exact mended_of_steps h habove h1 h2 h3 h4
  · exact (countSuper_like (s := s2)).1.scanned.trans h2.like.scanned
  · exact (countSuper_like (s := s2)).1.parsed.trans h2.like.parsed

theorem ext2Repair_ends (habove : AboveGdt (blockAt d 1)) : Ends (ext2Repair sectors true) d (fun res d' =>
      ∃ s, Checked d sectors s ∧ Mended d s.r d' ∧ res.2.r.scanned = s.r.scanned ∧ res.2.r.parsed = s.r.parsed) := by
  refine Try.WP.bind check_gets.ends fun s d1 h => ?_
  obtain ⟨rfl, h⟩ := h
  rw [repairFound]
  by_cases hneeds : needsRepair s.r = true
  · rw [if_pos ⟨rfl, hneeds⟩]
    refine Try.WP.bind (applyRepair_ends h (h.gdt ▸ habove)) fun s' d' h' => Try.WP.pure ?_
    exact ⟨s, h, h'.1, h'.2⟩
  · rw [if_neg fun hn => hneeds hn.2]
    exact Try.WP.pure ⟨s, h, h.mended (Bool.eq_false_of_not_eq_true hneeds), rfl, rfl⟩

/-! ## The resulting image -/

theorem r16_lt (p : Buf) (o : Nat) : r16 p o < 2 ^ 16 := by
  have h0 := (p o).toNat_lt
  have h1 := (p (o + 1)).toNat_lt
  rw [r16]
  omega

theorem r32_lt (p : Buf) (o : Nat) : r32 p o < 2 ^ 32 := by
  have h0 := r16_lt p o
  have h1 := r16_lt p (o + 2)
  rw [r32]
  omega

/-- A byte of a block, of which a part was written at least: the new one or the old one. -/
theorem blockAt_overwrite_cases {d : Disk} (b n : Nat) (m : Buf) (o : Nat) :
    blockAt (d.overwrite (b * spb * 512) n m) b o = m o ∨
      blockAt (d.overwrite (b * spb * 512) n m) b o = blockAt d b o := by
  by_cases hin : o < spb * 512
  · by_cases hn : o < n
    · left
      rw [blockAt, slice_of_lt hin, overwrite_in (by omega) (by omega), Nat.add_sub_cancel_left]
    · right
      rw [blockAt, slice_of_lt hin, overwrite_out (by omega), blockAt, slice_of_lt hin]
  · right
    rw [blockAt, blockAt, slice, slice, if_neg hin, if_neg hin]

/-- The number of groups is not that of a sum that has wrapped. -/
theorem blocks_le (hbpg : 0 < (geometry sb).bpg) (hgroups : 0 < (geometry sb).groups) :
    (geometry sb).blocks ≤ (geometry sb).groups * (geometry sb).bpg := by
  have hblocks := r32_lt sb 4
  simp only [geometry] at hbpg hgroups ⊢
  generalize r32 sb 4 = n at *
  generalize r32 sb 32 = m at *
  have hwrap : n + m - 1 < 2 ^ 32 := by
    by_contra hge
    have hmod : (n + m - 1) % 2 ^ 32 < m := by omega
    rw [Nat.div_eq_of_lt hmod] at hgroups
    omega
  rw [Nat.mod_eq_of_lt hwrap]
  have := Nat.div_add_mod' (n + m - 1) m
  have := Nat.mod_lt (n + m - 1) hbpg
  omega

/-- The inodes that were scanned, counted from 0. -/
def scannedInodes (geo : Geometry) (scanned : Buf) : List Nat := (range geo.inodes).filter fun i => bit scanned i

/-- All blocks that scanned inodes reach. -/
def allReached (d : Disk) (scanned : Buf) : List Nat :=
  (scannedInodes (geometry d.sb) scanned).flatMap fun i =>
    reached d (geometry d.sb) (blockAt d 1) (i + 1)

/-- The zero bits of the bitmaps of a group. -/
def zeroBlocks (d : Disk) (g : Nat) : Nat :=
  zeros (blockAt d (blockBitmap (blockAt d 1) g))
    (groupEnd (geometry d.sb) g - groupStart (geometry d.sb) g)

def zeroInodes (d : Disk) (g : Nat) : Nat :=
  zeros (blockAt d (inodeBitmap (blockAt d 1) g)) (groupInodes (geometry d.sb) g)

/-- The file system on an image is consistent, as far as the inodes that were scanned go. -/
structure Consistent (d : Disk) (scanned : Buf) : Prop where
  range : ∀ b ∈ allReached d scanned, b < (geometry d.sb).blocks
  nodup : (allReached d scanned).Nodup
  apart : ∀ b ∈ allReached d scanned, b ∉ metadata (geometry d.sb) (blockAt d 1)
  marked : ∀ b ∈ allReached d scanned,
    bit (blockAt d (blockBitmap (blockAt d 1) (b / (geometry d.sb).bpg)))
      (b % (geometry d.sb).bpg) = true
  groups : ∀ g < (geometry d.sb).groups, r16 (blockAt d 1) (g * descSize + 12) = zeroBlocks d g ∧
    r16 (blockAt d 1) (g * descSize + 14) = zeroInodes d g
  super : r32 d.sb 12 = ∑ g ∈ Finset.range (geometry d.sb).groups, zeroBlocks d g ∧
    r32 d.sb 16 = ∑ g ∈ Finset.range (geometry d.sb).groups, zeroInodes d g

/-- The block of an inode lies in the inode table of its group. -/
theorem inodeBlock_in (gdt : Buf) (hvalid : validGeometry sectors (geometry sb))
    (hgroups : validGroups (geometry sb)) (hi : i < (geometry sb).inodes) :
    i / (geometry sb).ipg < (geometry sb).groups ∧
    inodeTable gdt (i / (geometry sb).ipg) ≤ inodeBlock (geometry sb) gdt (i + 1) ∧
    inodeBlock (geometry sb) gdt (i + 1) < inodeTable gdt (i / (geometry sb).ipg) + (geometry sb).inodeTableBlocks := by
  have hipg : 0 < (geometry sb).ipg := hvalid.2.2.2.1
  have hisz : 128 ≤ (geometry sb).inodeSize := hvalid.2.2.2.2.2.2.1
  have hblocks : (geometry sb).inodeTableBlocks = ((geometry sb).ipg * (geometry sb).inodeSize + bs - 1) / bs := rfl
  have hmul : (i % (geometry sb).ipg + 1) * (geometry sb).inodeSize ≤ (geometry sb).ipg * (geometry sb).inodeSize :=
    Nat.mul_le_mul_right _ (Nat.mod_lt i hipg)
  rw [Nat.add_mul] at hmul
  refine ⟨Nat.div_lt_of_lt_mul (lt_of_lt_of_le hi (Nat.mul_comm _ _ ▸ hgroups.2.2.2.1)), Nat.le_add_right _ _, ?_⟩
  rw [inodeBlock, Nat.add_sub_cancel, hblocks]
  simp only [bs]
  omega

theorem inodeBlock_mem (h : Checked d sectors s) (hi : i < s.r.inodes) : i / s.r.ipg < s.r.groups ∧
    inodeTable s.r.gdt (i / s.r.ipg) ≤ inodeBlock s.r.geo s.r.gdt (i + 1) ∧
    inodeBlock s.r.geo s.r.gdt (i + 1) < inodeTable s.r.gdt (i / s.r.ipg) + s.r.inodeTableBlocks := by
  have hvalid := h.valid
  have hgroups := h.groups
  rw [h.geometry] at hvalid hgroups hi ⊢
  exact inodeBlock_in _ hvalid hgroups hi

section

variable {sectors : Nat} {s : Totals} {order : List Nat} (h : Checked d sectors s) (hscan : Scanned d s.r order)
  (habove : AboveGdt s.r.gdt) (hm : Mended d s.r d')

include h hscan habove hm

variable {i : Nat}

/-- The inodes are where they were. -/
theorem inodeAt_eq (hi : i < s.r.inodes) :
    inodeAt d' s.r.geo (blockAt d' 1) (i + 1) = inodeAt d s.r.geo s.r.gdt (i + 1) := by
  obtain ⟨hg, hge, hlt⟩ := inodeBlock_mem h hi
  have hn := (nodup_append.mp hscan.marked.nodup).1
  have hle := habove.le
  have hplace : inodeBlock s.r.geo (blockAt d' 1) (i + 1) = inodeBlock s.r.geo s.r.gdt (i + 1) := by
    rw [inodeBlock, inodeBlock, Nat.add_sub_cancel, (hm.places _ hg).2.2]
  have hlow : ∀ b ≤ 1, inodeBlock s.r.geo s.r.gdt (i + 1) ≠ b := fun b hb heq =>
    (low_ne hn (Nat.lt_of_le_of_lt (Nat.zero_le _) hg) hg
      (show b < prefixEnd s.r.gdt 0 by omega)).2.2 _ hge hlt heq.symm
  rw [inodeAt, inodeAt, hplace,
    hm.other _ (hlow 0 (by omega)) (hlow 1 (by omega)) fun g hg' => table_ne hn hg hg' hge hlt]

/-- What a scanned inode reaches is not written. -/
theorem blockAt_reached {b : Nat} (hi : i ∈ order) (hb : b ∈ reached d s.r.geo s.r.gdt (i + 1)) :
    blockAt d' b = blockAt d b ∧ b < s.r.blocks ∧ b ∉ metadata s.r.geo s.r.gdt ∧ bit s.r.blockRefs b = true := by
  have hmem : b ∈ order.flatMap fun i => reached d s.r.geo s.r.gdt (i + 1) := mem_flatMap.mpr ⟨i, hi, hb⟩
  have hapart : b ∉ metadata s.r.geo s.r.gdt := fun hmeta =>
    (nodup_append.mp hscan.marked.nodup).2.2 b hmeta b hmem rfl
  refine ⟨?_, hscan.marked.lt b (mem_append_right _ hmem), hapart, ?_⟩
  · have hle := habove.le
    have hlow : ∀ x ≤ 1, b ≠ x := fun x hx heq =>
      hapart (groupMeta_sub h.groups.1 (low_mem (show b < prefixEnd s.r.gdt 0 by omega)))
    refine hm.other b (hlow 0 (by omega)) (hlow 1 (by omega)) fun g hg => ⟨fun heq => hapart ?_, fun heq => hapart ?_⟩
    · exact groupMeta_sub hg (heq ▸ blockBitmap_mem)
    · exact groupMeta_sub hg (heq ▸ inodeBitmap_mem)
  · exact (hscan.marked.bits b).mpr (.inr (mem_append_right _ hmem))

theorem reached_eq (hi : i ∈ order) :
    reached d' s.r.geo (blockAt d' 1) (i + 1) = reached d s.r.geo s.r.gdt (i + 1) := by
  have hinode := inodeAt_eq h hscan habove hm (hscan.lt i hi)
  rw [reached, reached, hinode]
  split
  · rename_i hin
    refine (blocksOf_congr fun b hb => ?_).1
    refine (blockAt_reached h hscan habove hm hi ?_).1
    rwa [reached, if_pos hin]
  · rfl

omit h hscan habove in
theorem metadata_eq : metadata s.r.geo (blockAt d' 1) = metadata s.r.geo s.r.gdt := by
  refine flatMap_congr fun g hg => ?_
  obtain ⟨hbb, hib, hit⟩ := hm.places g (mem_range.mp hg)
  rw [groupMeta, groupMeta, prefixEnd, prefixEnd, hbb, hib, hit]

/-- The order of the scan makes no difference. -/
theorem allReached_perm : (allReached d' s.r.scanned).Perm
    (order.flatMap fun i => reached d s.r.geo s.r.gdt (i + 1)) := by
  have hperm : (scannedInodes s.r.geo s.r.scanned).Perm order := by
    refine (perm_ext_iff_of_nodup (nodup_range.filter _) hscan.nodup).mpr fun i => ?_
    rw [mem_filter, mem_range, hscan.scanned]
    exact ⟨fun hi => hi.2, fun hi => ⟨hscan.lt i hi, hi⟩⟩
  rw [allReached, hm.geometry]
  refine (hperm.flatMap_right _).trans (List.Perm.of_eq (flatMap_congr fun i hi => ?_))
  exact reached_eq h hscan habove hm hi

omit hscan habove in
/-- The bitmaps on the resulting image hold what was marked. -/
theorem blockBitmap_bit {b : Nat} (hb : b < s.r.blocks) (hbit : bit s.r.blockRefs b = true) :
    bit (blockAt d' (blockBitmap (blockAt d' 1) (b / s.r.bpg))) (b % s.r.bpg) = true := by
  have hbpg : 0 < s.r.bpg := h.valid.2.2.1
  have hle : s.r.bpg ≤ bs * 8 := h.valid.2.2.2.2.1
  have hmod := Nat.mod_lt b hbpg
  have hdiv := Nat.div_add_mod' b s.r.bpg
  have hg : b / s.r.bpg < s.r.groups := by
    have hblocks : s.r.blocks ≤ s.r.groups * s.r.bpg := by
      rw [h.geometry]
      exact blocks_le (h.geometry ▸ hbpg) (h.geometry ▸ h.groups.1)
    exact Nat.div_lt_of_lt_mul (lt_of_lt_of_le hb (Nat.mul_comm _ _ ▸ hblocks))
  rw [(hm.places _ hg).1, hm.blocks _ hg _ (by omega), blockFill, (fillBits_spec _ _ _ 0 _).bits]
  refine .inr ⟨Nat.zero_le _, ?_, ?_⟩
  · rw [groupEnd, groupStart]
    omega
  · rwa [groupStart, hdiv]

omit hscan habove in
theorem zeros_eq (hg : g < s.r.groups) : (blockFill d s.r g).free = zeroBlocks d' g ∧
    (inodeFill d s.r g).free = zeroInodes d' g := by
  obtain ⟨hbb, hib, -⟩ := hm.places g hg
  have hbpg : s.r.bpg ≤ bs * 8 := h.valid.2.2.2.2.1
  have hipg : s.r.ipg ≤ bs * 8 := h.valid.2.2.2.2.2.1
  rw [blockFill_free, inodeFill_free, zeroBlocks, zeroInodes, hm.geometry, hbb, hib]
  refine ⟨zeros_congr fun k hk => (hm.blocks g hg k ?_).symm, zeros_congr fun k hk => (hm.inodes g hg k ?_).symm⟩
  · rw [groupEnd] at hk
    omega
  · rw [groupInodes] at hk
    omega

theorem Mended.consistent : Consistent d' s.r.scanned := by
  have hperm := allReached_perm h hscan habove hm
  have hfacts : ∀ b ∈ allReached d' s.r.scanned,
      b < s.r.blocks ∧ b ∉ metadata s.r.geo s.r.gdt ∧ bit s.r.blockRefs b = true := fun b hb => by
    obtain ⟨i, hi, hbi⟩ := mem_flatMap.mp (hperm.mem_iff.mp hb)
    exact (blockAt_reached h hscan habove hm hi hbi).2
  have hzeros : ∀ g ∈ Finset.range s.r.groups, (blockFill d s.r g).free = zeroBlocks d' g ∧
      (inodeFill d s.r g).free = zeroInodes d' g := fun g hg => zeros_eq h hm (Finset.mem_range.mp hg)
  refine ⟨?_, ?_, ?_, ?_, ?_, ?_⟩
  · rw [hm.geometry]
    exact fun b hb => (hfacts b hb).1
  · exact hperm.nodup_iff.mpr (nodup_append.mp hscan.marked.nodup).2.1
  · rw [hm.geometry, metadata_eq hm]
    exact fun b hb => (hfacts b hb).2.1
  · rw [hm.geometry]
    exact fun b hb => blockBitmap_bit h hm (hfacts b hb).1 (hfacts b hb).2.2
  · rw [hm.geometry]
    intro g hg
    obtain ⟨hb, hi⟩ := hzeros g (Finset.mem_range.mpr hg)
    rw [← hb, ← hi]
    exact ⟨(hm.counters g hg).blocks, (hm.counters g hg).inodes⟩
  · rw [hm.geometry, ← Finset.sum_congr rfl fun g hg => (hzeros g hg).1,
      ← Finset.sum_congr rfl fun g hg => (hzeros g hg).2]
    exact hm.super

end

/-! ## Without faults -/

/-- Without faults, the program ends well. -/
def Succeeds {α : Type} (p : Rep α) (d : Disk) (Q : α → Disk → Prop) : Prop :=
  Try.WP (Allows false) p d Q (fun _ _ => False) fun _ _ => True

section

variable {sectors sector count : Nat} {buf : Buf}

theorem has_sectors (hdev : sectors * 512 ≤ d.size) (hin : sector + count ≤ sectors) :
    d.Has (sector * 512) (count * 512) := by
  refine .inr (le_trans ?_ hdev)
  rw [← Nat.add_mul]
  exact Nat.mul_le_mul_right 512 hin

theorem rwRead_succeeds (hdev : sectors * 512 ≤ d.size) (hin : sector + count ≤ sectors) :
    Succeeds (rwRead sectors sector count) d fun b d' => d' = d ∧ b = d.slice (sector * 512) (count * 512) := by
  rw [rwRead, if_neg (by omega)]
  refine Try.WP.lift_bind (Q := fun r d' => d' = d ∧ r = some (d.slice (sector * 512) (count * 512))) ?_
    fun r d' h => ?_
  · exact Dev.WP.read trivial (fun _ => ⟨rfl, rfl⟩) fun h =>
      h.elim (absurd (has_sectors hdev hin)) fun hf => absurd hf Bool.false_ne_true
  · obtain ⟨rfl, rfl⟩ := h
    exact Try.WP.pure ⟨rfl, rfl⟩

theorem writeCompared_succeeds (hdev : sectors * 512 ≤ d.size) (hin : sector + count ≤ sectors) :
    Succeeds (writeCompared sectors sector count buf) d fun _ d' => d'.size = d.size := by
  have hwrite : Succeeds (rwWrite sectors sector count buf) d fun _ d' =>
      d' = d.overwrite (sector * 512) (count * 512) buf := by
    rw [rwWrite, if_neg (by omega)]
    refine Try.WP.lift_bind (Q := fun ok d' => ok = true ∧ d' = d.overwrite (sector * 512) (count * 512) buf) ?_
      fun ok d' h => ?_
    · exact Dev.WP.write trivial (fun _ => ⟨rfl, rfl⟩) fun _ h =>
        h.elim (absurd (has_sectors hdev hin)) fun hf => absurd hf Bool.false_ne_true
    · obtain ⟨rfl, rfl⟩ := h
      exact Try.WP.pure rfl
  refine Try.WP.bind hwrite fun _ d1 h1 => ?_
  subst h1
  refine Try.WP.bind (rwRead_succeeds hdev hin) fun b d2 h2 => ?_
  obtain ⟨rfl, rfl⟩ := h2
  have hsame : sameBytes (count * 512) buf
      ((d.overwrite (sector * 512) (count * 512) buf).slice (sector * 512) (count * 512)) = true :=
    decide_eq_true fun i hi => by
      rw [slice_of_lt hi, overwrite_in (Nat.le_add_right _ _) (Nat.add_lt_add_left hi _), Nat.add_sub_cancel_left]
  rw [if_pos hsame]
  exact Try.WP.pure rfl

theorem reconcileMap_succeeds {b first n : Nat} {refs : Buf} (hdev : r.sectors * 512 ≤ d.size)
    (hblocks : r.blocks * spb ≤ r.sectors) (hb : b < r.blocks) :
    Succeeds (reconcileMap true r b refs first n) d fun _ d' => d'.size = d.size := by
  have hin : b * spb + spb ≤ r.sectors := by
    simp only [spb] at hblocks ⊢
    omega
  rw [reconcileMap, readBlock, if_neg (by omega)]
  refine Try.WP.bind (rwRead_succeeds hdev hin) fun block d1 h => ?_
  obtain ⟨rfl, -⟩ := h
  dsimp only
  split
  · exact Try.WP.bind (Try.WP.adapt (writeCompared_succeeds hdev hin)) fun _ d' h => Try.WP.pure h
  · exact Try.WP.pure rfl

end

/-- The places in the descriptors are kept by a round. -/
theorem countGroup_places {fb fi : Fill} (g : Nat) :
    blockBitmap (countGroup true g' fb fi s).r.gdt g = blockBitmap s.r.gdt g ∧
      inodeBitmap (countGroup true g' fb fi s).r.gdt g = inodeBitmap s.r.gdt g := by
  have hword : ∀ o < 12, (countGroup true g' fb fi s).r.gdt (g * descSize + o) = s.r.gdt (g * descSize + o) :=
    fun o ho => countGroup_gdt_out (by simp only [descSize]; omega)
  refine ⟨r32_congr fun i hi => hword i (by omega), r32_congr fun i hi => ?_⟩
  rw [Nat.add_assoc]
  exact hword _ (by omega)

theorem reconcile_succeeds (hdev : r.sectors * 512 ≤ d.size) (hblocks : r.blocks * spb ≤ r.sectors)
    (hmaps : ∀ g < r.groups, blockBitmap r.gdt g < r.blocks ∧ inodeBitmap r.gdt g < r.blocks) :
    Succeeds (reconcile true r) d fun s d' => Like r s.r ∧ d'.size = d.size := by
  have h := Try.WP.loop (M := machine) (A := Allows false) (E := fun (_ : Option String) _ => False)
    (C := fun _ _ => True) (f := reconcileGroup true) (n := r.groups) (i := 0) (x := ⟨r, 0, 0⟩) (s := d)
    (I := fun _ s d' => Like r s.r ∧ d'.size = d.size ∧ ∀ g, blockBitmap s.r.gdt g = blockBitmap r.gdt g ∧
      inodeBitmap s.r.gdt g = inodeBitmap r.gdt g)
    ⟨.refl r, rfl, fun _ => ⟨rfl, rfl⟩⟩ fun j _ hj s d1 hs => ?_
  · exact h.mono fun s d' h => ⟨h.1, h.2.1⟩
  obtain ⟨hl, hsize, hplaces⟩ := hs
  have hin := hmaps j (by omega)
  have hdev1 : s.r.sectors * 512 ≤ d1.size := by rwa [hl.sectors, hsize]
  have hblocks1 : s.r.blocks * spb ≤ s.r.sectors := by rwa [hl.sectors, hl.geometry]
  refine Try.WP.bind (reconcileMap_succeeds hdev1 hblocks1 ?_) fun fb d2 h2 =>
    Try.WP.bind (reconcileMap_succeeds (h2.symm ▸ hdev1) hblocks1 ?_) fun fi d3 h3 =>
      Try.WP.pure ⟨hl.countGroup, ?_, ?_⟩
  · rw [(hplaces j).1, hl.geometry]
    exact hin.1
  · rw [(hplaces j).2, hl.geometry]
    exact hin.2
  · rw [h3, h2, hsize]
  · intro g
    rw [(countGroup_places g).1, (countGroup_places g).2]
    exact hplaces g

theorem applyRepair_succeeds (h : Checked d sectors s) (habove : AboveGdt s.r.gdt)
    (hdev : sectors * 512 ≤ d.size) : Succeeds (applyRepair s.r) d fun s' _ =>
      s'.r.scanned = s.r.scanned ∧ s'.r.parsed = s.r.parsed := by
  obtain ⟨order, hscan⟩ := h.scan
  have hle := habove.le
  have hblocks : s.r.blocks * spb ≤ s.r.sectors := h.device.symm ▸ h.valid.2.2.2.2.2.2.2.2.2.2.2
  have hmeta : ∀ {g b : Nat}, g < s.r.groups → b ∈ groupMeta s.r.geo s.r.gdt g → b < s.r.blocks := fun hg hb =>
    hscan.marked.lt _ (mem_append_left _ (groupMeta_sub hg hb))
  have hone : 1 < s.r.blocks := hmeta h.groups.1 (low_mem (by omega))
  have hdev' : s.r.sectors * 512 ≤ d.size := h.device.symm ▸ hdev
  have hsec : 16 ≤ s.r.sectors := by
    simp only [spb] at hblocks
    omega
  refine Try.WP.bind (Try.WP.adapt (writeCompared_succeeds hdev' (show 2 + 2 ≤ s.r.sectors by omega)))
    fun _ d1 h1 => ?_
  refine Try.WP.bind (reconcile_succeeds (h1.symm ▸ hdev') hblocks
    fun g hg => ⟨hmeta hg blockBitmap_mem, hmeta hg inodeBitmap_mem⟩) fun s2 d2 h2 => ?_
  have hl := (countSuper_like (s := s2)).1
  have hsec2 : (countSuper s2).r.sectors = s.r.sectors := hl.sectors.trans h2.1.sectors
  have hdev2 : (countSuper s2).r.sectors * 512 ≤ d2.size := by rwa [hsec2, h2.2, h1]
  refine Try.WP.bind (Try.WP.adapt (writeCompared_succeeds hdev2 ?_)) fun _ d3 h3 => ?_
  · rw [spb]
    omega
  refine Try.WP.bind (Try.WP.adapt (writeCompared_succeeds (h3.symm ▸ hdev2) ?_)) fun _ d4 _ => Try.WP.pure ?_
  · change 2 + 2 ≤ (countSuper s2).r.sectors
    omega
  · exact ⟨hl.scanned.trans h2.1.scanned, hl.parsed.trans h2.1.parsed⟩

/-- Without faults, a repair ends well if the check does. -/
theorem ext2Repair_succeeds (habove : AboveGdt (blockAt d 1)) (hdev : sectors * 512 ≤ d.size)
    (hcheck : ((check sectors).run.exec (fun _ => .ok) d).1 = .ok s) :
    ∃ res d', (ext2Repair sectors true).run.exec (fun _ => .ok) d = (.ok res, d') ∧
      (res.2.r.scanned = s.r.scanned ∧ res.2.r.parsed = s.r.parsed) ∧ res.1 = needsRepair s.r := by
  have hgets := WP.exec_done (show Gets (check sectors) d _ from check_gets) (σ := fun _ => .ok) fun _ => trivial
  rw [hcheck] at hgets
  obtain ⟨hd, hc⟩ := hgets
  have hrest : Succeeds (repairFound true s) d fun res _ =>
      (res.2.r.scanned = s.r.scanned ∧ res.2.r.parsed = s.r.parsed) ∧ res.1 = needsRepair s.r := by
    rw [repairFound]
    split
    · rename_i hneeds
      refine Try.WP.bind (applyRepair_succeeds hc (hc.gdt ▸ habove) hdev) fun s' d' h => Try.WP.pure ⟨h, ?_⟩
      exact hneeds.2.symm
    · exact Try.WP.pure ⟨⟨rfl, rfl⟩, rfl⟩
  have hend := WP.exec_done hrest (σ := fun _ => .ok) fun _ => trivial
  rw [ext2Repair, Try.exec_bind (Prod.ext hcheck hd)]
  generalize (repairFound true s).run.exec (fun _ => .ok) d = e at hend
  obtain ⟨res | res, d'⟩ := e
  · exact hend.elim
  · exact ⟨res, d', rfl, hend⟩

/-! ## A small file system

It has one group of 8 blocks and 16 inodes, with the bitmaps in the blocks 2 and 3 and the
inodes in block 4. The root directory has block 5, where a first entry of `len` bytes names
inode 12, a file without blocks that is not allocated in the bitmap.
-/

def fsSuper : List (Nat × UInt8) :=
  [(0, 16), (4, 8), (24, 2), (32, 8), (40, 16), (56, 0x53), (57, 0xef), (58, 1), (84, 11), (88, 128)]

/-- The inode table. Inode 1 is not in use, and its bytes from 12 on are those of an entry
that ends the block. -/
def fsTable : List (Nat × UInt8) :=
  [(16, 0xf4), (17, 0x0f), (128, 0xed), (129, 0x41), (133, 16), (168, 5), (1408, 0xa4), (1409, 0x81)]

def fsRoot (len : Nat) : List (Nat × UInt8) :=
  [(0, 12), (4, UInt8.ofNat (len % 256)), (5, UInt8.ofNat (len / 256)), (6, 1), (8, 0x78)]

def fsBlocks (len : Nat) : List (List (Nat × UInt8)) :=
  [fsSuper.map fun x => (1024 + x.1, x.2), [(0, 2), (4, 3), (8, 4)], [(0, 0x3f)], [(0, 2)], fsTable, fsRoot len]

def sampleFs (len : Nat) : Disk where
  size := 8 * bs
  bytes i := (((fsBlocks len).getD (i / bs) []).lookup (i % bs)).getD 0

theorem sampleFs_above (h : len = 12 ∨ len = 4096) : AboveGdt (blockAt (sampleFs len) 1) := by
  rw [AboveGdt]
  obtain rfl | rfl := h
  · decide +kernel
  · decide +kernel

/-- The check scans the inodes 2 and 12, and the second is missing in the bitmap. It walks
over block 5. -/
theorem sampleFs_check (h : len = 12 ∨ len = 4096) : ∃ s,
    ((check 64).run.exec (fun _ => .ok) (sampleFs len)).1 = .ok s ∧
      (scannedInodes s.r.geo s.r.scanned = [1, 11] ∧ s.r.parsed.map Prod.fst = [5]) ∧ needsRepair s.r = true := by
  have heval : (((check 64).run.exec (fun _ => .ok) (sampleFs len)).1.toOption.map
      fun s => ((scannedInodes s.r.geo s.r.scanned, s.r.parsed.map Prod.fst), needsRepair s.r)) =
        some (([1, 11], [5]), true) := by
    obtain rfl | rfl := h
    · decide +kernel
    · decide +kernel
  generalize ((check 64).run.exec (fun _ => .ok) (sampleFs len)).1 = e at heval
  obtain e | s := e
  · cases heval
  · have hpair := Prod.mk.inj (Option.some.inj heval)
    exact ⟨s, rfl, Prod.mk.inj hpair.1, hpair.2⟩

/-- The repair ends well when no operation fails. -/
theorem sampleFs_repair (h : len = 12 ∨ len = 4096) : ∃ res d',
    (ext2Repair 64 true).run.exec (fun _ => .ok) (sampleFs len) = (.ok res, d') ∧
      (bit res.2.r.scanned 1 = true ∧ bit res.2.r.scanned 11 = true ∧ res.2.r.parsed.map Prod.fst = [5]) ∧
        res.1 = true := by
  obtain ⟨s, hcheck, ⟨hscanned, hparsed⟩, hneeds⟩ := sampleFs_check h
  obtain ⟨res, d', hrun, hsame, hret⟩ :=
    ext2Repair_succeeds (sampleFs_above h) (show 64 * 512 ≤ 8 * bs by decide) hcheck
  refine ⟨res, d', hrun, ?_, hret.trans hneeds⟩
  have hmem : ∀ i ∈ [1, 11], bit s.r.scanned i = true := fun i hi => (mem_filter.mp (hscanned ▸ hi)).2
  rw [hsame.1, hsame.2]
  exact ⟨hmem 1 (by decide), hmem 11 (by decide), hparsed⟩

/-! ## Soundness -/

theorem allows_all (σ : Nat → Choice) (n : Nat) : Allows true (σ n) := by
  cases σ n with
  | ok => trivial
  | fail k => rfl

theorem check_reads {σ : Nat → Choice} : ∀ o ∈ (check sectors).run.trace σ d, Op.isWrite o = false := by
  have hreads : WP (M := machine) (Allows true) (check sectors).run d (fun _ _ => True) fun o _ => o.isWrite = false :=
    Lorica.WP.mono check_gets (fun _ _ _ => trivial) fun _ _ h => h.1
  exact WP.trace hreads (allows_all σ)

/-- A run that ends well has checked the image and mended it, whatever failed on the way. -/
theorem ext2Repair_run {σ : Nat → Choice} {res : Bool × Totals} (habove : AboveGdt (blockAt d 1))
    (h : (ext2Repair sectors true).run.exec σ d = (.ok res, d')) :
    ∃ s, Checked d sectors s ∧ Mended d s.r d' ∧ res.2.r.scanned = s.r.scanned ∧ res.2.r.parsed = s.r.parsed := by
  have hwp : Ends (ext2Repair sectors true) d _ := ext2Repair_ends habove
  have hends := WP.exec_done hwp (allows_all σ)
  rwa [h] at hends

/-- When `ext2_repair` ends well in repair mode, the file system is consistent: the blocks
that scanned inodes reach are in range, are all different, are no metadata and have their
bits set, and the counters are those of the bitmaps. -/
theorem repair_sound {sectors : Nat} {σ : Nat → Choice} {res : Bool × Totals} (habove : AboveGdt (blockAt d 1))
    (h : (ext2Repair sectors true).run.exec σ d = (.ok res, d')) : Consistent d' res.2.r.scanned := by
  obtain ⟨s, hc, hm, hscanned, -⟩ := ext2Repair_run habove h
  obtain ⟨order, hscan⟩ := hc.scan
  rw [hscanned]
  exact Mended.consistent hc hscan (hc.gdt ▸ habove) hm

theorem repair_sound_sample : ∃ res d',
    (ext2Repair 64 true).run.exec (fun _ => .ok) (sampleFs 4096) = (.ok res, d') ∧ bit res.2.r.scanned 11 = true ∧
      Consistent d' res.2.r.scanned := by
  obtain ⟨res, d', hrun, ⟨-, hscanned, -⟩, -⟩ := sampleFs_repair (.inr rfl)
  exact ⟨res, d', hrun, hscanned, repair_sound (sampleFs_above (.inr rfl)) hrun⟩

end Lorica.Proof.Install
