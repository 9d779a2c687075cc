import Lorica.Proof.Install.Grow

/-!
# ext2_grow: the larger file system

The phases of `ext2_grow` one after another: group 0 (`growGroup0_safe`), the new groups
(`growGroup_safe`), inode 7 (`growResizeInode_safe`), the copies (`growBackup_safe`) and the
descriptors. What has been written for the new groups is `Laid`, what the variables say of
them `Described`. With the descriptors and the superblock the image is that of the larger
file system.
-/

namespace Lorica.Proof.Install

open Lorica.Impl.Install Disk

variable {d d₁ d₂ : Disk} {p : Plan} {s : Grow} {sectors g j b k : Nat}

/-! ## Descriptors -/

section

variable {gdt : Buf} {bb ib it fb fi o : Nat}

theorem bgdSet_out (h : o < g * descSize ∨ g * descSize + descSize ≤ o) : bgdSet gdt g bb ib it fb fi o = gdt o := by
  have hsize : descSize = 32 := rfl
  rw [bgdSet, w16_out (by omega), w16_out (by omega), w32_out (by omega), w32_out (by omega), w32_out (by omega),
    if_neg (by omega)]

theorem bgdSet_places (hbb : bb < 2 ^ 32) (hib : ib < 2 ^ 32) (hit : it < 2 ^ 32) :
    blockBitmap (bgdSet gdt g bb ib it fb fi) g = bb ∧ inodeBitmap (bgdSet gdt g bb ib it fb fi) g = ib ∧
      inodeTable (bgdSet gdt g bb ib it fb fi) g = it := by
  refine ⟨?_, ?_, ?_⟩
  · rw [blockBitmap, bgdSet, r32_w16_ne (by omega), r32_w16_ne (by omega), r32_w32_ne (by omega),
      r32_w32_ne (by omega), r32_w32 hbb]
  · rw [inodeBitmap, bgdSet, r32_w16_ne (by omega), r32_w16_ne (by omega), r32_w32_ne (by omega), r32_w32 hib]
  · rw [inodeTable, bgdSet, r32_w16_ne (by omega), r32_w16_ne (by omega), r32_w32 hit]

theorem bgdSet_counters (hfb : fb < 65536) (hfi : fi < 65536) : Counters (bgdSet gdt g bb ib it fb fi) g fb fi 0 := by
  have hsize : descSize = 32 := rfl
  refine ⟨?_, ?_, ?_⟩
  · rw [bgdSet, r16_w16_ne (by omega), r16_w16, Nat.mod_eq_of_lt hfb]
  · rw [bgdSet, r16_w16, Nat.mod_eq_of_lt hfi]
  · rw [bgdSet, r16_w16_ne (by omega), r16_w16_ne (by omega), r16_w32_ne (by omega), r16_w32_ne (by omega),
      r16_w32_ne (by omega), r16, if_pos (by omega), if_pos (by omega)]
    rfl

end

/-! ## What is written for the groups -/

/-- The place of the block bitmap of a new group. -/
def newMap (sb : Buf) (g : Nat) : Nat := g * (geometry sb).bpg + groupPrefix sb g

/-- A plan for a file system of one group that does not make it smaller. -/
structure Planned (sb : Buf) (p : Plan) : Prop where
  pos : 0 < p.groups
  groups : p.groups ≤ maxGroups
  blocks : (geometry sb).blocks ≤ p.targetBlocks
  last : (p.groups - 1) * (geometry sb).bpg < p.targetBlocks
  fits : p.targetBlocks ≤ p.groups * (geometry sb).bpg
  lt : p.targetBlocks < 2 ^ 32

theorem Planned.group0End_le {sb : Buf} (h : Planned sb p) : group0End sb p ≤ (geometry sb).bpg := by
  rw [group0End]
  split
  · rename_i hone
    have := h.fits
    rwa [hone, Nat.one_mul] at this
  · exact le_refl _

theorem Planned.le_group0End {sb : Buf} (h : Planned sb p) (hle : (geometry sb).blocks ≤ (geometry sb).bpg) :
    (geometry sb).blocks ≤ group0End sb p := by
  rw [group0End]
  split
  · exact h.blocks
  · exact hle

/-- The old file system is kept, group 0 has its free blocks, and the bitmaps of the new
groups up to `j` are written; the device has room for what these take. -/
structure Laid (d : Disk) (p : Plan) (j : Nat) (d₁ : Disk) : Prop where
  kept : Kept d d₁
  map : ∀ k < bs * 8, bit (blockAt d₁ (blockBitmap (blockAt d 1) 0)) k =
    (bit (blockAt d (blockBitmap (blockAt d 1) 0)) k &&
      decide (¬ ((geometry d.sb).blocks ≤ k ∧ k < group0End d.sb p)))
  room : ∀ g, 0 < g → g < j → groupTaken d.sb g < groupValid d.sb p g
  device : ∀ g, 0 < g → g < j → (newMap d.sb g + 2 + (geometry d.sb).inodeTableBlocks) * spb * 512 ≤ d.size
  blockMap : ∀ g, 0 < g → g < j → ∀ k < bs * 8, bit (blockAt d₁ (newMap d.sb g)) k =
    decide (¬ (groupTaken d.sb g ≤ k ∧ k < groupValid d.sb p g))
  inodeMap : ∀ g, 0 < g → g < j → ∀ k < bs * 8, bit (blockAt d₁ (newMap d.sb g + 1)) k =
    decide (¬ k < (geometry d.sb).ipg)

theorem le_newMap {sb : Buf} (hg : 0 < g) : (geometry sb).bpg ≤ newMap sb g :=
  le_trans (Nat.le_mul_of_pos_left _ hg) (Nat.le_add_right _ _)

theorem newMap_lt {sb : Buf} (h : groupTaken sb g < groupValid sb p g) : g * (geometry sb).bpg ≤ newMap sb g ∧
      newMap sb g + 2 + (geometry sb).inodeTableBlocks < g * (geometry sb).bpg + groupValid sb p g ∧
      groupValid sb p g ≤ (geometry sb).bpg := by
  refine ⟨Nat.le_add_right _ _, ?_, Nat.min_le_right _ _⟩
  rw [newMap]
  rw [groupTaken] at h
  omega

theorem newMap_lt_target {sb : Buf} (h : groupTaken sb g < groupValid sb p g) :
    newMap sb g + 2 + (geometry sb).inodeTableBlocks < p.targetBlocks := by
  have hle : groupValid sb p g ≤ p.targetBlocks - g * (geometry sb).bpg := Nat.min_le_left _ _
  have hlt := (newMap_lt h).2.1
  omega

/-- All reserved blocks are listed. -/
def Listed (d : Disk) : Prop :=
  reservedGdt d.sb ≠ 0 → resizeDind d ≠ 0 ∧ ∀ r < reservedGdt d.sb, reservedBlock d r ≠ 0

/-- What the variables say after the groups up to `j`: the descriptor of group 0 has another
number of free blocks, and the new groups have theirs. -/
structure Described (d : Disk) (p : Plan) (j : Nat) (s : Grow) : Prop where
  places : ∀ o < 12, s.gdt o = blockAt d 1 o
  count : r16 s.gdt 12 =
    (r16 (blockAt d 1) 12 + (group0End d.sb p - (geometry d.sb).blocks)) % 65536
  rest : ∀ o, 14 ≤ o → o < 18 → s.gdt o = blockAt d 1 o
  new : ∀ g, 0 < g → g < j → blockBitmap s.gdt g = newMap d.sb g ∧
    inodeBitmap s.gdt g = newMap d.sb g + 1 ∧ inodeTable s.gdt g = newMap d.sb g + 2
  counters : ∀ g, 0 < g → g < j → Counters s.gdt g
    (groupValid d.sb p g - groupTaken d.sb g) (geometry d.sb).ipg 0
  free : s.freeBlocks = r32 d.sb 12 + (group0End d.sb p - (geometry d.sb).blocks) +
    ∑ g ∈ Finset.Ico 1 j, (groupValid d.sb p g - groupTaken d.sb g)

theorem described_group0 : Described d p 1
    ⟨w16 (blockAt d 1) 12 (r16 (blockAt d 1) 12 + (group0End d.sb p - r32 d.sb 4)),
      r32 d.sb 12 + (group0End d.sb p - r32 d.sb 4), 0⟩ where
  places _ _ := w16_out (by omega)
  count := r16_w16
  rest _ _ _ := w16_out (by omega)
  new g _ _ := by omega
  counters g _ _ := by omega
  free := by simp [geometry]

theorem Described.next (h : Described d p j s) (hp : Planned d.sb p) (hc : CleanFs sectors d) (hj : 0 < j)
    (hroom : groupTaken d.sb j < groupValid d.sb p j) :
    Described d p (j + 1) (addGroup d.sb p j s) := by
  have hlt := newMap_lt_target hroom
  have h32 := hp.lt
  have hbpg : (geometry d.sb).bpg ≤ bs * 8 := hc.valid.2.2.2.2.1
  have hipg : (geometry d.sb).ipg ≤ bs * 8 := hc.valid.2.2.2.2.2.1
  have hvalid := (newMap_lt hroom).2.2
  have hbs : bs * 8 < 65536 := by decide
  have hsize : descSize = 32 := rfl
  have hmul : descSize ≤ j * descSize := Nat.le_mul_of_pos_left _ hj
  have hout : ∀ o, o < j * descSize → (addGroup d.sb p j s).gdt o = s.gdt o := fun o ho => bgdSet_out (.inl ho)
  have hold : ∀ g < j, g * descSize + descSize ≤ j * descSize := fun g hg => by
    rw [← Nat.succ_mul]
    exact Nat.mul_le_mul_right _ hg
  refine ⟨fun o ho => ?_, ?_, fun o ho ho' => ?_, fun g hpos hg => ?_, fun g hpos hg => ?_, ?_⟩
  · rw [hout o (by omega), h.places o ho]
  · rw [r16_congr (hout _ (by omega)) (hout _ (by omega)), h.count]
  · rw [hout o (by omega), h.rest o ho ho']
  · by_cases heq : g = j
    · have hbb : newMap d.sb j < 2 ^ 32 := by omega
      have hib : newMap d.sb j + 1 < 2 ^ 32 := by omega
      have hit : newMap d.sb j + 2 < 2 ^ 32 := by omega
      rw [heq]
      exact bgdSet_places hbb hib hit
    · have hg' := hold g (by omega)
      obtain ⟨hbb, hib, hit⟩ := h.new g hpos (by omega)
      have hsame : ∀ o, o + 4 ≤ j * descSize → r32 (addGroup d.sb p j s).gdt o = r32 s.gdt o := fun o ho =>
        r32_congr fun i hi => hout _ (by omega)
      exact ⟨(hsame _ (by omega)).trans hbb, (hsame _ (by omega)).trans hib, (hsame _ (by omega)).trans hit⟩
  · by_cases heq : g = j
    · have hfi : (geometry d.sb).ipg < 65536 := by omega
      rw [heq]
      exact bgdSet_counters (by omega) hfi
    · have hg' := hold g (by omega)
      obtain ⟨hfb, hfi, hdirs⟩ := h.counters g hpos (by omega)
      refine ⟨?_, ?_, ?_⟩
      · rw [r16_congr (hout _ (by omega)) (hout _ (by omega)), hfb]
      · rw [r16_congr (hout _ (by omega)) (hout _ (by omega)), hfi]
      · rw [r16_congr (hout _ (by omega)) (hout _ (by omega)), hdirs]
  · rw [Finset.sum_Ico_succ_top hj, ← Nat.add_assoc, ← h.free]
    rfl

section

variable (hc : CleanFs sectors d) (hs : Shaped d)

include hc hs

/-- Writes before the metadata of group 0, or in the other groups outside the bitmaps that
are there. -/
theorem Laid.frame {S : Nat → Prop} (h : Laid d p j d₁) (hf : Frame S d₁ d₂)
    (hS : ∀ b, S b → 2 ≤ b ∧ b < prefixEnd (blockAt d 1) 0 ∨ (geometry d.sb).bpg ≤ b ∧
      ∀ g, 0 < g → g < j → b ≠ newMap d.sb g ∧ b ≠ newMap d.sb g + 1) : Laid d p j d₂ := by
  have hle := hc.blocks_le_bpg hs.groups
  obtain ⟨-, hbb, -⟩ := hs.prefix_le
  have hlt := hc.meta_lt hc.groups.1 blockBitmap_mem
  refine ⟨h.kept.frame hc hs hf fun b hb => ?_, fun k hk => ?_, h.room, h.device, fun g hpos hg k hk => ?_,
    fun g hpos hg k hk => ?_⟩
  · have := hS b hb
    omega
  · rw [hf.block _ fun hb => ?_, h.map k hk]
    have := hS _ hb
    omega
  · rw [hf.block _ fun hb => ?_, h.blockMap g hpos hg k hk]
    have hnew : (geometry d.sb).bpg ≤ newMap d.sb g := le_newMap hpos
    rcases hS _ hb with hlow | ⟨-, hne⟩
    · omega
    · exact (hne g hpos hg).1 rfl
  · rw [hf.block _ fun hb => ?_, h.inodeMap g hpos hg k hk]
    have hnew : (geometry d.sb).bpg ≤ newMap d.sb g := le_newMap hpos
    rcases hS _ hb with hlow | ⟨-, hne⟩
    · omega
    · exact (hne g hpos hg).2 rfl

/-! ## Group 0 -/

theorem growGroup0_safe (hp : Planned d.sb p) : Safe (Kept d) (growGroup0 d.sb p (blockAt d 1)) d
    fun s d₁ => s = ⟨w16 (blockAt d 1) 12 (r16 (blockAt d 1) 12 + (group0End d.sb p - r32 d.sb 4)),
        r32 d.sb 12 + (group0End d.sb p - r32 d.sb 4), 0⟩ ∧
      Laid d p 1 d₁ ∧ Frame (fun b => b = blockBitmap (blockAt d 1) 0 ∨ (geometry d.sb).bpg ≤ b) d d₁ := by
  have habove := hs.above.1
  rw [growGroup0]
  split
  · exact Safe.fail _ (.refl d)
  refine (Safe.orFail _ (growRead_safe (.refl d))).bind fun bitmap d₁ h1 => ?_
  obtain ⟨rfl, hmap⟩ := h1
  have hbitmap : bitmap = blockAt d₁ (blockBitmap (blockAt d₁ 1) 0) := hmap
  have hbits : ∀ k, bit (bitmapClearRange bitmap (r32 d₁.sb 4) (group0End d₁.sb p)) k =
      (bit (blockAt d₁ (blockBitmap (blockAt d₁ 1) 0)) k &&
        decide (¬ ((geometry d₁.sb).blocks ≤ k ∧ k < group0End d₁.sb p))) := fun k => by
    rw [bit_clearRange, hbitmap]
    rfl
  have hwrite : ∀ n ≤ spb * 512, Kept d₁ (d₁.overwrite (blockBitmap (blockAt d₁ 1) 0 * spb * 512) n
      (bitmapClearRange bitmap (r32 d₁.sb 4) (group0End d₁.sb p))) := by
    intro n hn
    refine (Kept.refl d₁).write hn (by omega) (fun h => by omega) (fun _ k hk => ?_) (fun h hr => ?_) fun _ => .inl rfl
    · rw [hbits, decide_eq_true (by omega), Bool.and_true]
    · exact absurd h.symm (hs.resizeBlock_in hc hr).2.2
  refine (Safe.orFail _ (growWriteBlock_safe hwrite)).bind fun _ d₂ h2 => Safe.pure ⟨rfl, ⟨?_, fun k hk => ?_,
    fun g _ _ => by omega, fun g _ _ => by omega, fun g _ _ => by omega, fun g _ _ => by omega⟩, ?_⟩
  · rw [h2]
    exact hwrite _ (le_refl _)
  · rw [h2, bit_congr (blockAt_overwrite (by omega)), hbits]
  · rw [h2]
    exact .write (le_refl _) (.inl rfl)

/-! ## New groups -/

omit hs in
/-- The inode table takes a block at least. -/
theorem CleanFs.table_pos : 0 < (geometry d.sb).inodeTableBlocks := by
  have hipg : 0 < r32 d.sb 40 := hc.valid.2.2.2.1
  have hsize : 128 ≤ r16 d.sb 88 := hc.valid.2.2.2.2.2.2.1
  have hmul : 1 * 128 ≤ r32 d.sb 40 * r16 d.sb 88 := Nat.mul_le_mul hipg hsize
  refine Nat.div_pos ?_ (by decide)
  simp only [bs]
  omega

omit hc hs in
/-- The blocks from the metadata of group `j` on. -/
theorem Laid.above (h : Laid d p j d₁) (hj : 0 < j) (hb : newMap d.sb j ≤ b) :
    (geometry d.sb).bpg ≤ b ∧
      ∀ g, 0 < g → g < j → b ≠ newMap d.sb g ∧ b ≠ newMap d.sb g + 1 := by
  have hstart : j * (geometry d.sb).bpg ≤ b := le_trans (Nat.le_add_right _ _) hb
  refine ⟨le_trans (Nat.le_mul_of_pos_left _ hj) hstart, fun g hpos hg => ?_⟩
  obtain ⟨-, hlt, hvalid⟩ := newMap_lt (h.room g hpos hg)
  have hnext := Nat.mul_le_mul_right (geometry d.sb).bpg (Nat.succ_le_of_lt hg)
  rw [Nat.succ_mul] at hnext
  omega

theorem growGroup_safe (hj : 0 < j) (h : Laid d p j d₁)
    (hf : Frame (fun b => b = blockBitmap (blockAt d 1) 0 ∨ (geometry d.sb).bpg ≤ b) d d₁) :
    Safe (Kept d) (growGroup d.sb p j s) d₁ fun s' d₂ => s' = addGroup d.sb p j s ∧
      Laid d p (j + 1) d₂ ∧ Frame (fun b => b = blockBitmap (blockAt d 1) 0 ∨ (geometry d.sb).bpg ≤ b) d d₂ := by
  have hstep : ∀ {S : Nat → Prop} {d₁ d₂ : Disk}, Laid d p j d₁ → Frame S d₁ d₂ →
      (∀ b, S b → newMap d.sb j ≤ b) → Laid d p j d₂ := fun h hf hS =>
    h.frame hc hs hf fun b hb => .inr (h.above hj (hS b hb))
  rw [growGroup]
  split
  · exact Safe.fail _ h.kept
  refine (Safe.orFail _ (growWriteBlock_frame (S := fun b => b = newMap d.sb j) rfl fun d' hd' =>
    (hstep h hd' fun b hb => hb.ge).kept)).bind fun _ d₂ h2 => ?_
  have hlaid2 := hstep h h2.2 fun b hb => hb.ge
  refine (Safe.orFail _ (growWriteBlock_frame (S := fun b => b = newMap d.sb j + 1) rfl fun d' hd' =>
    (hstep hlaid2 hd' fun b hb => by omega).kept)).bind fun _ d3 h3 => ?_
  have hlaid3 := hstep hlaid2 h3.2 fun b hb => by omega
  refine (Safe.orFail _ (zeroBlocks_frame (S := fun b => newMap d.sb j + 2 ≤ b) (fun b hb _ => hb) fun d' hd' =>
    (hstep hlaid3 hd' fun b hb => by omega).kept)).bind fun _ d4 h4 => Safe.pure ⟨rfl, ?_, ?_⟩
  all_goals obtain ⟨h4, hdevice⟩ := h4
  · have hlaid4 := hstep hlaid3 h4 fun b hb => by omega
    refine ⟨hlaid4.kept, hlaid4.map, fun g hpos hg => ?_, fun g hpos hg => ?_, fun g hpos hg k hk => ?_,
      fun g hpos hg k hk => ?_⟩
    · by_cases heq : g = j
      · rw [heq]
        omega
      · exact h.room g hpos (by omega)
    · by_cases heq : g = j
      · rw [heq, ← hlaid3.kept.size]
        exact hdevice hc.table_pos
      · exact h.device g hpos (by omega)
    · by_cases heq : g = j
      · rw [heq, h4.block _ (by omega), h3.2.block _ (by omega), h2.1]
        have hbit : bit (blockAt (d₁.overwrite (newMap d.sb j * spb * 512) (spb * 512)
            (bitmapClearRange ones (groupTaken d.sb j) (groupValid d.sb p j)))
            (newMap d.sb j)) k = _ := bit_congr (blockAt_overwrite (by omega))
        exact hbit.trans (by rw [bit_clearRange, bit_ones, Bool.true_and])
      · exact hlaid4.blockMap g hpos (by omega) k hk
    · by_cases heq : g = j
      · rw [heq, h4.block _ (by omega), h3.1]
        have hbit : bit (blockAt (d₂.overwrite ((newMap d.sb j + 1) * spb * 512) (spb * 512)
            (bitmapClearRange ones 0 (geometry d.sb).ipg)) (newMap d.sb j + 1)) k = _ :=
          bit_congr (blockAt_overwrite (by omega))
        refine hbit.trans ?_
        rw [bit_clearRange, bit_ones, Bool.true_and]
        congr 1
        refine propext ?_
        omega
      · exact hlaid4.inodeMap g hpos (by omega) k hk
  · have hnew : (geometry d.sb).bpg ≤ newMap d.sb j := le_newMap hj
    refine hf.trans (((h2.2.mono fun b hb => ?_).trans (h3.2.mono fun b hb => ?_)).trans (h4.mono fun b hb => ?_))
    all_goals omega

/-! ## Inode 7 -/

/-- The block of inode 7 is written, with another number of sectors. -/
theorem Laid.resize {m : Buf} {n : Nat} (h : Laid d p j d₁) (hres : reservedGdt d.sb ≠ 0) (hn : n ≤ spb * 512)
    (hm : ∀ o, o < resizeOff d.sb + 28 ∨ resizeOff d.sb + 32 ≤ o →
      m o = blockAt d (resizeBlock d.sb (blockAt d 1)) o) :
    Laid d p j (d₁.overwrite (resizeBlock d.sb (blockAt d 1) * spb * 512) n m) := by
  obtain ⟨⟨hge, -⟩, hlt, hne⟩ := hs.resizeBlock_in hc hres
  have hle := hc.blocks_le_bpg hs.groups
  obtain ⟨htwo, -, -, hit⟩ := hs.prefix_le
  have hframe : Frame (fun b => b = resizeBlock d.sb (blockAt d 1)) d₁
      (d₁.overwrite (resizeBlock d.sb (blockAt d 1) * spb * 512) n m) :=
    .write hn rfl
  refine ⟨?_, fun k hk => ?_, h.room, h.device, fun g hpos hg k hk => ?_, fun g hpos hg k hk => ?_⟩
  · exact h.kept.write hn (by omega) (fun h => by omega) (fun h => absurd h hne)
      (fun _ _ => hm) fun _ => .inr ⟨hres, rfl⟩
  · rw [hframe.block _ hne.symm, h.map k hk]
  · have hnew : (geometry d.sb).bpg ≤ newMap d.sb g := le_newMap hpos
    rw [hframe.block _ (by omega), h.blockMap g hpos hg k hk]
  · have hnew : (geometry d.sb).bpg ≤ newMap d.sb g := le_newMap hpos
    rw [hframe.block _ (by omega), h.inodeMap g hpos hg k hk]

/-- What holds at each point of the rest of a run (`K`), by an invariant `I` that the writes
keep which are left: to blocks from `low` on before the metadata of group 0, to the number of
sectors of inode 7, and to the other groups outside their bitmaps. -/
structure Lasting (d : Disk) (p : Plan) (low : Nat) (I K : Disk → Prop) : Prop where
  frame : ∀ {S : Nat → Prop} {d₁ d₂ : Disk}, I d₁ → Frame S d₁ d₂ →
    (∀ b, S b → low ≤ b ∧ b < prefixEnd (blockAt d 1) 0 ∨ (geometry d.sb).bpg ≤ b ∧
      ∀ g, 0 < g → g < p.groups → b ≠ newMap d.sb g ∧ b ≠ newMap d.sb g + 1) → I d₂
  resize : ∀ {n : Nat} {m : Buf} {d₁ : Disk}, I d₁ → reservedGdt d.sb ≠ 0 → n ≤ spb * 512 →
    (∀ o, o < resizeOff d.sb + 28 ∨ resizeOff d.sb + 32 ≤ o → m o = blockAt d (resizeBlock d.sb (blockAt d 1)) o) →
      I (d₁.overwrite (resizeBlock d.sb (blockAt d 1) * spb * 512) n m)
  keep : ∀ {d₁ : Disk}, I d₁ → K d₁

theorem Laid.lasting {K : Disk → Prop} (hK : ∀ d', Kept d d' → K d') : Lasting d p 2 (Laid d p p.groups) K where
  frame h := h.frame hc hs
  resize h := h.resize hc hs
  keep h := hK _ h.kept

/-- With the old descriptors in block 1 the image is laid out as before. -/
def LaidBelow (d : Disk) (p : Plan) (d₁ : Disk) : Prop :=
  Laid d p p.groups (d₁.overwrite (1 * spb * 512) (spb * 512) (blockAt d 1))

theorem Laid.below (h : Laid d p p.groups d₁) (hone : blockAt d₁ 1 = blockAt d 1) : LaidBelow d p d₁ := by
  refine h.frame hc hs (S := fun _ => False) ⟨rfl, fun b _ => ?_⟩ fun _ hb => hb.elim
  by_cases hb : b = 1
  · rw [hb, blockAt_overwrite_block, hone]
  · exact blockAt_overwrite_ne hb

theorem LaidBelow.lasting : Lasting d p 1 (LaidBelow d p) fun _ => True where
  frame {S d₁ d₂} h hf hS := by
    refine h.frame hc hs (S := fun b => S b ∧ b ≠ 1) ⟨hf.size, fun b hb => ?_⟩ fun b hb => ?_
    · by_cases hone : b = 1
      · rw [hone, blockAt_overwrite_block, blockAt_overwrite_block]
      · rw [blockAt_overwrite_ne hone, blockAt_overwrite_ne hone, hf.block b fun hSb => hb ⟨hSb, hone⟩]
    · exact (hS b hb.1).imp_left fun hlow => ⟨by omega, hlow.2⟩
  resize {n m d₁} h hres hn hm := by
    obtain ⟨⟨hge, -⟩, -⟩ := hs.resizeBlock_in hc hres
    have habove := hs.above.2.2
    rw [LaidBelow, overwrite_comm (by simp only [spb]; omega)]
    exact h.resize hc hs hres hn hm
  keep _ := trivial

/-- The entries of the double-indirect block of inode 7 when it is read. -/
def Refers (d : Disk) (low : Nat) (d₁ : Disk) : Prop :=
  ∀ r < reservedGdt d.sb, r32 (blockAt d₁ (resizeDind d)) ((r + 1) * 4) ≠ 0 →
    (low ≤ r32 (blockAt d₁ (resizeDind d)) ((r + 1) * 4) ∧
      r32 (blockAt d₁ (resizeDind d)) ((r + 1) * 4) < prefixEnd (blockAt d 1) 0) ∧ reservedBlock d r ≠ 0

omit hc hs in
/-- A byte with fewer bits is not larger. -/
theorem byte_le {m m' : Buf} {o : Nat} (h : ∀ k, k / 8 = o → bit m' k = true → bit m k = true) :
    (m' o).toNat ≤ (m o).toNat := by
  have hand : (m' o).toNat &&& (m o).toNat = (m' o).toNat := by
    refine Nat.eq_of_testBit_eq fun j => ?_
    rw [Nat.testBit_and]
    by_cases hj : j < 8
    · have hbits := h (8 * o + j) (by omega)
      rw [bit, bit, show (8 * o + j) / 8 = o by omega, show (8 * o + j) % 8 = j by omega] at hbits
      cases hbit : (m' o).toNat.testBit j with
      | false => rfl
      | true => exact hbits hbit
    · rw [Nat.testBit_lt_two_pow
        (lt_of_lt_of_le (m' o).toNat_lt (Nat.pow_le_pow_right (by decide) (Nat.le_of_not_lt hj))),
        Bool.false_and]
  exact hand ▸ Nat.and_le_right

omit hc hs in
theorem r32_le {m m' : Buf} {o : Nat} (h : ∀ o, (m' o).toNat ≤ (m o).toNat) : r32 m' o ≤ r32 m o := by
  have h0 := h o
  have h1 := h (o + 1)
  have h2 := h (o + 2)
  have h3 := h (o + 2 + 1)
  rw [r32, r32, r16, r16, r16, r16]
  omega

omit hc hs in
/-- The block bitmap has no more bits than before. -/
theorem Laid.map_le (h : Laid d p j d₁) (o : Nat) : (blockAt d₁ (blockBitmap (blockAt d 1) 0) o).toNat ≤
    (blockAt d (blockBitmap (blockAt d 1) 0) o).toNat := by
  by_cases ho : o < spb * 512
  · refine byte_le fun k hk hbit => ?_
    rw [h.map k (by simp only [spb] at ho; simp only [bs]; omega)] at hbit
    exact (Bool.and_eq_true _ _ ▸ hbit).1
  · have hzero : blockAt d₁ (blockBitmap (blockAt d 1) 0) o = 0 := if_neg ho
    rw [hzero]
    exact Nat.zero_le _

/-- The entries are those of the old image. If the block bitmap is taken for the double-indirect
block they can be smaller, since bits have been cleared there. -/
theorem Shaped.refers (h : Laid d p p.groups d₁)
    (hf : Frame (fun b => b = blockBitmap (blockAt d 1) 0 ∨ (geometry d.sb).bpg ≤ b) d d₁)
    (hres : reservedGdt d.sb ≠ 0) : Refers d 1 d₁ ∧
      (resizeDind d ≠ blockBitmap (blockAt d 1) 0 → Refers d 2 d₁) := by
  have hlt := hs.dind hres
  have hbpg := hc.blocks_le_bpg hs.groups
  have hrange : ∀ r < reservedGdt d.sb, r32 (blockAt d (resizeDind d)) ((r + 1) * 4) ≠ 0 →
      2 ≤ r32 (blockAt d (resizeDind d)) ((r + 1) * 4) ∧
        r32 (blockAt d (resizeDind d)) ((r + 1) * 4) < prefixEnd (blockAt d 1) 0 := fun r hr hne =>
    ⟨(hs.reserved r hr hne).1, hs.before r hr hne⟩
  have hle : ∀ o, r32 (blockAt d₁ (resizeDind d)) o ≤ r32 (blockAt d (resizeDind d)) o := fun o => by
    by_cases hbb : resizeDind d = blockBitmap (blockAt d 1) 0
    · rw [hbb]
      exact r32_le h.map_le
    · rw [hf.block _ (by omega)]
  refine ⟨fun r hr hnext => ?_, fun hbb r hr hnext => ?_⟩
  · have hsmall := hle ((r + 1) * 4)
    have hne : r32 (blockAt d (resizeDind d)) ((r + 1) * 4) ≠ 0 := by omega
    have := hrange r hr hne
    exact ⟨⟨by omega, by omega⟩, hne⟩
  · rw [hf.block _ (by omega)] at hnext ⊢
    exact ⟨hrange r hr hnext, hnext⟩

theorem growResizeInode_safe {low : Nat} {I K : Disk → Prop} (hI : Lasting d p low I K) (h : I d₁)
    (hf : Frame (fun b => b = blockBitmap (blockAt d 1) 0 ∨ (geometry d.sb).bpg ≤ b) d d₁)
    (hrefs : reservedGdt d.sb ≠ 0 → Refers d low d₁) (hgdt : r32 s.gdt 8 = r32 (blockAt d 1) 8) :
    Safe K (growResizeInode d.sb p s) d₁ fun _ d₂ => I d₂ ∧ Listed d := by
  have hblock : resizeBlock d.sb s.gdt = resizeBlock d.sb (blockAt d 1) := by
    rw [resizeBlock, resizeBlock, hgdt]
  rw [growResizeInode, hblock]
  split
  · exact Safe.pure ⟨h, fun hres => absurd ‹_› hres⟩
  rename_i hres
  obtain ⟨-, hlt, hne⟩ := hs.resizeBlock_in hc hres
  have hle := hc.blocks_le_bpg hs.groups
  refine (Safe.orFail _ (growRead_safe (hI.keep h))).bind fun block d₂ h2 => ?_
  obtain ⟨rfl, hread⟩ := h2
  -- No block of group 0 but the bitmap has been written.
  have hinode : block = blockAt d (resizeBlock d.sb (blockAt d 1)) := hread.trans (hf.block _ (by omega))
  rw [hinode]
  show Safe _ (if resizeDind d = 0 then _ else _) _ _
  split
  · exact Safe.fail _ (hI.keep h)
  rename_i hzero
  refine (Safe.orFail _ (growRead_safe (hI.keep h))).bind fun refs d3 h3 => ?_
  obtain ⟨rfl, hread'⟩ := h3
  obtain rfl : refs = blockAt d3 (resizeDind d) := hread'
  have hloop : Safe K (Try.loop (growReserved d.sb p (blockAt d3 (resizeDind d))) (reservedGdt d.sb) 0 ()) d3
      fun _ d4 => I d4 ∧ ∀ r < 0 + reservedGdt d.sb, reservedBlock d r ≠ 0 := by
    refine Safe.loop (fun r _ d4 => I d4 ∧ ∀ r' < r, reservedBlock d r' ≠ 0)
      ⟨h, fun r hr => absurd hr (Nat.not_lt_zero r)⟩ fun r _ hr _ d4 h4 => ?_
    obtain ⟨h4, hbefore⟩ := h4
    rw [growReserved]
    split
    · exact Safe.fail _ (hI.keep h4)
    rename_i hnext
    obtain ⟨hrange, hlisted⟩ := hrefs hres r (by omega) hnext
    refine (Safe.orFail _ (growRead_safe (hI.keep h4))).bind fun _ d5 h5 => ?_
    obtain ⟨rfl, -⟩ := h5
    have hstep : ∀ d', Frame (Eq (r32 (blockAt d3 (resizeDind d)) ((r + 1) * 4))) d5 d' → I d' := fun d' hd' =>
      hI.frame h4 hd' fun b hb => .inl (hb ▸ hrange)
    refine (Safe.orFail _ (growWriteBlock_frame rfl fun d' hd' => hI.keep (hstep d' hd'))).mono
      fun _ d6 h6 => ⟨hstep d6 h6.2, fun r' hr' => ?_⟩
    by_cases heq : r' = r
    · rwa [heq]
    · exact hbefore r' (by omega)
  refine hloop.bind fun _ d4 h4 => Safe.orFail _ ?_
  obtain ⟨h4, hlisted⟩ := h4
  rw [Nat.zero_add] at hlisted
  have hwrite : ∀ n ≤ spb * 512, I (d4.overwrite (resizeBlock d.sb (blockAt d 1) * spb * 512) n
      (resizeInode d.sb s.backupCount (blockAt d (resizeBlock d.sb (blockAt d 1))))) := fun n hn =>
    hI.resize h4 hres hn fun o ho => w32_out (by omega)
  refine (growWriteBlock_safe fun n hn => hI.keep (hwrite n hn)).mono fun _ d5 h5 => ⟨?_, fun _ => ⟨hzero, hlisted⟩⟩
  rw [h5]
  exact hwrite _ (le_refl _)

/-! ## Copies -/

omit hc hs in
theorem growBackup_safe {sb1 gdt : Buf} {low : Nat} {I K : Disk → Prop} (hI : Lasting d p low I K)
    (hrooms : ∀ g, 0 < g → g < p.groups → groupTaken d.sb g < groupValid d.sb p g) (h : I d₁) (hg : 0 < g)
    (hgp : g < p.groups) : Safe K (growBackup d.sb sb1 gdt g ()) d₁ fun _ => I := by
  rw [growBackup]
  split
  · rename_i hsparse
    have hprefix : groupPrefix d.sb g = 2 + reservedGdt d.sb := if_pos hsparse
    obtain ⟨-, hroom, hvalid⟩ := newMap_lt (hrooms g hg hgp)
    rw [newMap] at hroom
    have hstart : (geometry d.sb).bpg ≤ g * (geometry d.sb).bpg := Nat.le_mul_of_pos_left _ hg
    -- What is before the bitmaps of its group is no bitmap of another one.
    have hstep : ∀ {d₁ d₂ : Disk}, I d₁ → Frame (fun b => g * (geometry d.sb).bpg ≤ b ∧
        b < g * (geometry d.sb).bpg + (2 + reservedGdt d.sb)) d₁ d₂ → I d₂ := by
      intro d₁ d₂ h hf
      refine hI.frame h hf fun b hb => .inr ⟨by omega, fun g' hpos hg' => ?_⟩
      obtain ⟨hge', hroom', hvalid'⟩ := newMap_lt (hrooms g' hpos hg')
      rcases Nat.lt_trichotomy g' g with hlt | rfl | hlt
      · have hnext := Nat.mul_le_mul_right (geometry d.sb).bpg (Nat.succ_le_of_lt hlt)
        rw [Nat.succ_mul] at hnext
        omega
      · rw [newMap]
        omega
      · have hnext := Nat.mul_le_mul_right (geometry d.sb).bpg (Nat.succ_le_of_lt hlt)
        rw [Nat.succ_mul] at hnext
        omega
    refine (Safe.orFail _ (growWriteBlock_frame ?_ fun d' hd' => hI.keep (hstep h hd'))).bind fun _ d₂ h2 => ?_
    · exact ⟨le_refl _, Nat.lt_add_of_pos_right (by omega)⟩
    refine (Safe.orFail _ (growWriteBlock_frame ?_ fun d' hd' => hI.keep (hstep (hstep h h2.2) hd'))).bind
      fun _ d3 h3 => ?_
    · exact ⟨Nat.le_add_right _ _, Nat.add_lt_add_left (by omega) _⟩
    refine Safe.loop (fun _ _ => I) (hstep (hstep h h2.2) h3.2) fun r _ hr _ d4 h4 => Safe.orFail _ ?_
    refine (zeroBlocks_frame (fun b hb hb' => ?_) fun d' hd' => hI.keep (hstep h4 hd')).mono
      fun _ d5 h5 => hstep h4 h5.1
    have hb1 : g * (geometry d.sb).bpg + 2 + r ≤ b := hb
    have hb2 : b < g * (geometry d.sb).bpg + 2 + r + 1 := hb'
    omega
  · exact Safe.pure h

/-! ## Up to the superblock -/

theorem growBody_safe {low : Nat} {I K : Disk → Prop} (hp : Planned d.sb p) (hI : Lasting d p low I K)
    (hK : ∀ d', Kept d d' → K d')
    (hlaid : ∀ d₁, Laid d p p.groups d₁ →
      Frame (fun b => b = blockBitmap (blockAt d 1) 0 ∨ (geometry d.sb).bpg ≤ b) d d₁ →
        I d₁ ∧ (reservedGdt d.sb ≠ 0 → Refers d low d₁))
    (hlast : ∀ s d₁, Described d p p.groups s → I d₁ → Listed d → ∀ n ≤ spb * 512,
      K (d₁.overwrite (1 * spb * 512) n s.gdt)) :
    Safe K (growBody d.sb p) d fun sb1 d' => ∃ s d₁, (Described d p p.groups s ∧ I d₁ ∧
      Listed d) ∧ d' = d₁.overwrite (1 * spb * 512) (spb * 512) s.gdt ∧ sb1 = growSuper d.sb p s.freeBlocks := by
  have hcount : 1 + (p.groups - 1) = p.groups := by
    have := hp.pos
    omega
  refine (Safe.orFail _ (growRead_safe (hK d (.refl d)))).bind fun gdt d₁ h1 => ?_
  obtain ⟨rfl, hread⟩ := h1
  have hgdt : gdt = blockAt d₁ 1 := hread
  rw [hgdt]
  refine ((growGroup0_safe hc hs hp).weaken hK).bind fun s d₂ h2 => ?_
  obtain ⟨rfl, h2, hf2⟩ := h2
  have hgroups := Safe.loop (K := Kept d₁) (f := growGroup d₁.sb p) (n := p.groups - 1) (i := 1)
    (fun j s d₂ => Described d₁ p j s ∧ Laid d₁ p j d₂ ∧
      Frame (fun b => b = blockBitmap (blockAt d₁ 1) 0 ∨ (geometry d₁.sb).bpg ≤ b) d₁ d₂)
    ⟨described_group0, h2, hf2⟩ fun j hj _ s d₂ h => by
      refine (growGroup_safe hc hs hj h.2.1 h.2.2).mono fun s' d3 h3 => ?_
      obtain ⟨rfl, hlaid, hframe⟩ := h3
      exact ⟨h.1.next hp hc hj (hlaid.room j hj (Nat.lt_succ_self j)), hlaid, hframe⟩
  rw [hcount] at hgroups
  refine (hgroups.weaken hK).bind fun s d3 h3 => ?_
  obtain ⟨hdesc, h3, hf3⟩ := h3
  obtain ⟨hinv, hrefs⟩ := hlaid d3 h3 hf3
  have hplace : r32 s.gdt 8 = r32 (blockAt d₁ 1) 8 := r32_congr fun i hi => hdesc.places _ (by omega)
  refine (growResizeInode_safe hc hs hI hinv hf3 hrefs hplace).bind fun _ d4 h4 => ?_
  obtain ⟨h4, hlisted⟩ := h4
  have hcopies := Safe.loop (K := K)
    (f := growBackup d₁.sb (growSuper d₁.sb p s.freeBlocks) s.gdt) (n := p.groups - 1) (i := 1) (x := ())
    (fun _ _ => I) h4 fun g hg hg' _ d5 h5 => growBackup_safe hI h3.room h5 hg (by omega)
  refine hcopies.bind fun _ d5 h5 => ?_
  refine (Safe.orFail _ (growWriteBlock_safe (hlast s d5 hdesc h5 hlisted))).bind fun _ d6 h6 => Safe.pure ?_
  exact ⟨s, d5, ⟨hdesc, h5, hlisted⟩, h6, rfl⟩

end

end Lorica.Proof.Install
