import Lorica.Proof.Install.Enlarge

/-!
# ext2_grow: before and after

The image with the new descriptors and the new superblock is that of a larger file system
(`Grown.extended`), so that a run which ends well leaves a clean one. With the new
descriptors alone the number of free blocks of group 0 is that of the larger group, which
the old superblock does not know of: then the old file system is clean only if group 0 was
full already.
-/

namespace Lorica.Proof.Install

open Lorica.Impl.Install Disk List

variable {d d₁ d₂ : Disk} {p : Plan} {s : Grow} {sectors g k : Nat}

/-! ## Free blocks -/

theorem zeros_add {m m' : Buf} {a n : Nat} (h : ∀ k < a, bit m' k = bit m k)
    (h' : ∀ k, a ≤ k → k < a + n → bit m' k = false) : zeros m' (a + n) = zeros m a + n := by
  induction n with
  | zero => exact zeros_congr h
  | succ n ih =>
    have hlast := h' (a + n) (by omega) (by omega)
    rw [zeros, ← Nat.add_assoc, range_succ, countP_append, ← zeros, ih fun k h1 h2 => h' k h1 (by omega)]
    simp [hlast, Nat.add_assoc]

theorem zeros_ones {m : Buf} {n : Nat} (h : ∀ k < n, bit m k = true) : zeros m n = 0 := by
  rw [zeros, countP_eq_zero]
  intro k hk
  simp [h k (mem_range.mp hk)]

/-! ## The superblock -/

section

variable {sb : Buf} {free : Nat}

theorem growSuper_out {o : Nat} (h : 20 ≤ o) (h' : o < 58 ∨ 60 ≤ o) : growSuper sb p free o = sb o := by
  rw [growSuper, w16_out (by omega), w32_out (by omega), w32_out (by omega), w32_out (by omega), w32_out (by omega),
    w32_out (by omega)]

theorem growSuper_counts (hi : p.groups * r32 sb 40 < 2 ^ 32) (hb : p.targetBlocks < 2 ^ 32) (hf : free < 2 ^ 32)
    (hfi : r32 sb 16 + (p.groups - 1) * r32 sb 40 < 2 ^ 32) :
    r32 (growSuper sb p free) 0 = p.groups * r32 sb 40 ∧ r32 (growSuper sb p free) 4 = p.targetBlocks ∧
      r32 (growSuper sb p free) 12 = free ∧
      r32 (growSuper sb p free) 16 = r32 sb 16 + (p.groups - 1) * r32 sb 40 := by
  rw [growSuper]
  refine ⟨?_, ?_, ?_, ?_⟩
  · rw [r32_w16_ne (by omega), r32_w32_ne (by omega), r32_w32_ne (by omega), r32_w32_ne (by omega),
      r32_w32_ne (by omega), r32_w32 hi]
  · rw [r32_w16_ne (by omega), r32_w32_ne (by omega), r32_w32_ne (by omega), r32_w32_ne (by omega), r32_w32 hb]
  · rw [r32_w16_ne (by omega), r32_w32_ne (by omega), r32_w32 hf]
  · rw [r32_w32_ne (by omega), r32_w32_ne (by omega), r32_w32_ne (by omega), r32_w32_ne (by omega),
      r32_w16_ne (by omega), r32_w32 hfi]

theorem growSuper_state (h : StateClean sb) : StateClean (growSuper sb p free) := by
  have hold : r16 (growSuper sb p free) 58 = r16 sb 58 ||| 1 := by
    have hlt : r16 sb 58 ||| 1 < 65536 := Nat.or_lt_two_pow (n := 16) (r16_lt sb 58) (by decide)
    rw [growSuper, r16_w32_ne (by omega), r16_w32_ne (by omega), r16_w32_ne (by omega), r16_w32_ne (by omega),
      r16_w32_ne (by omega), r16_w16, Nat.mod_eq_of_lt hlt]
  rw [StateClean, hold]
  obtain ⟨-, h2⟩ := h
  rw [Nat.and_or_distrib_right, Nat.and_or_distrib_right, h2]
  exact ⟨fun h => absurd (Nat.or_eq_zero_iff.mp h).2 (by decide), by decide⟩

end

/-! ## The image -/

/-- The free blocks of a group of the larger file system. -/
def freeIn (d : Disk) (p : Plan) (g : Nat) : Nat :=
  if g = 0 then zeroBlocks d 0 + (group0End d.sb p - (geometry d.sb).blocks)
  else groupValid d.sb p g - groupTaken d.sb g

/-- The descriptors and the superblock are written after all else. -/
structure Grown (d : Disk) (p : Plan) (s : Grow) (d₁ d₂ : Disk) : Prop where
  laid : Laid d p p.groups d₁
  described : Described d p p.groups s
  gdt : ∀ o < bs, blockAt d₂ 1 o = s.gdt o
  super : ∀ i < 2 * 512, d₂.sb i = growSuper d.sb p s.freeBlocks i
  block : ∀ b, 1 < b → blockAt d₂ b = blockAt d₁ b

theorem grown_of_writes (hlaid : Laid d p p.groups d₁) (hdesc : Described d p p.groups s)
    (hblock : ∀ b, 1 < b → blockAt d₂ b = blockAt d₁ b) :
    Grown d p s d₁ ((d₂.overwrite (1 * spb * 512) (spb * 512) s.gdt).overwrite (2 * 512) (2 * 512)
      (growSuper d.sb p s.freeBlocks)) where
  laid := hlaid
  described := hdesc
  gdt o ho := by rw [blockAt_super Nat.one_ne_zero, blockAt_overwrite ho]
  super i hi := superblock_overwrite hi
  block b hb := by rw [blockAt_super (by omega), blockAt_overwrite_ne (by omega), hblock b hb]

section

variable (hc : CleanFs sectors d) (hs : Shaped d) (hp : Planned d.sb p)

include hc hs

theorem zeroBlocks_zero : zeroBlocks d 0 =
    zeros (blockAt d (blockBitmap (blockAt d 1) 0)) (geometry d.sb).blocks := by
  have hle := hc.blocks_le_bpg hs.groups
  rw [zeroBlocks, groupEnd, groupStart, Nat.zero_mul, Nat.zero_add, Nat.sub_zero, Nat.min_eq_right hle]

include hp

theorem freeIn_lt (g : Nat) : freeIn d p g < 65536 := by
  have hbpg : (geometry d.sb).bpg ≤ bs * 8 := hc.valid.2.2.2.2.1
  have hbs : bs * 8 < 65536 := by decide
  rw [freeIn]
  split
  · have hzeros := zeros_le (blockAt d (blockBitmap (blockAt d 1) 0)) (geometry d.sb).blocks
    have hle := hp.le_group0End (hc.blocks_le_bpg hs.groups)
    have hend := hp.group0End_le
    rw [zeroBlocks_zero hc hs]
    omega
  · have hvalid : groupValid d.sb p g ≤ (geometry d.sb).bpg := Nat.min_le_right _ _
    omega

theorem Described.free_eq (h : Described d p p.groups s) :
    s.freeBlocks = ∑ g ∈ Finset.range p.groups, freeIn d p g := by
  have hsuper := hc.super.1
  rw [hs.groups, Finset.sum_range_one] at hsuper
  rw [h.free, hsuper, Finset.range_eq_Ico, Finset.sum_eq_sum_Ico_succ_bot hp.pos]
  congr 1
  refine Finset.sum_congr rfl fun g hg => ?_
  have := Finset.mem_Ico.mp hg
  exact (if_neg (by omega)).symm

variable (h : Grown d p s d₁ d₂)

include h

omit hc hs hp in
theorem Grown.r32_eq {o : Nat} (ho : 20 ≤ o) (ho' : o + 4 ≤ 58 ∨ 60 ≤ o ∧ o < 500) :
    r32 d₂.sb o = r32 d.sb o :=
  r32_congr fun i hi => (h.super _ (by omega)).trans (growSuper_out (by omega) (by omega))

omit hc hs hp in
theorem Grown.r16_eq {o : Nat} (ho : 20 ≤ o) (ho' : o + 2 ≤ 58 ∨ 60 ≤ o ∧ o < 500) :
    r16 d₂.sb o = r16 d.sb o :=
  r16_congr ((h.super _ (by omega)).trans (growSuper_out (by omega) (by omega)))
    ((h.super _ (by omega)).trans (growSuper_out (by omega) (by omega)))

omit hc hs hp in
theorem Grown.same : (geometry d₂.sb).bpg = (geometry d.sb).bpg ∧
    (geometry d₂.sb).ipg = (geometry d.sb).ipg ∧
    (geometry d₂.sb).inodeSize = (geometry d.sb).inodeSize ∧
    (geometry d₂.sb).firstIno = (geometry d.sb).firstIno ∧
    (geometry d₂.sb).inodeTableBlocks = (geometry d.sb).inodeTableBlocks := by
  have hipg : r32 d₂.sb 40 = r32 d.sb 40 := h.r32_eq (by omega) (by omega)
  have hsize : r16 d₂.sb 88 = r16 d.sb 88 := h.r16_eq (by omega) (by omega)
  refine ⟨h.r32_eq (by omega) (by omega), hipg, hsize, h.r32_eq (by omega) (by omega), ?_⟩
  simp only [geometry, hipg, hsize]

/-- The numbers of the superblock. -/
theorem Grown.counts : (geometry d₂.sb).blocks = p.targetBlocks ∧
    (geometry d₂.sb).inodes = p.groups * (geometry d.sb).ipg ∧
    r32 d₂.sb 12 = s.freeBlocks ∧
    r32 d₂.sb 16 = zeroInodes d 0 + (p.groups - 1) * (geometry d.sb).ipg := by
  have hipg : (geometry d.sb).ipg ≤ bs * 8 := hc.valid.2.2.2.2.2.1
  have hbs : bs * 8 = 32768 := by decide
  have hgroups := hp.groups
  have hmul : p.groups * (geometry d.sb).ipg ≤ maxGroups * 32768 := Nat.mul_le_mul hgroups (by omega)
  have hmul' : (p.groups - 1) * (geometry d.sb).ipg ≤ p.groups * (geometry d.sb).ipg :=
    Nat.mul_le_mul_right _ (by omega)
  have hmax : maxGroups * 32768 < 2 ^ 31 := by decide
  have hfree : s.freeBlocks < 2 ^ 32 := by
    rw [h.described.free_eq hc hs hp]
    exact sum_lt hgroups (freeIn_lt hc hs hp)
  have hsuper := hc.super.2
  have hzeros : zeroInodes d 0 ≤ (geometry d.sb).ipg :=
    le_trans (zeros_le _ _) (by rw [groupInodes]; omega)
  rw [hs.groups, Finset.sum_range_one] at hsuper
  have hsum : r32 d.sb 16 + (p.groups - 1) * (geometry d.sb).ipg < 2 ^ 32 := by
    omega
  have hin : p.groups * (geometry d.sb).ipg < 2 ^ 32 := by omega
  obtain ⟨h0, h1, h2, h3⟩ := growSuper_counts hin hp.lt hfree hsum
  have hread : ∀ o < 20, r32 d₂.sb o = r32 (growSuper d.sb p s.freeBlocks) o := fun o ho =>
    r32_congr fun i hi => h.super _ (by omega)
  refine ⟨(hread 4 (by decide)).trans h1, (hread 0 (by decide)).trans h0, (hread 12 (by decide)).trans h2, ?_⟩
  rw [hread 16 (by decide), h3, hsuper]
  rfl

theorem Grown.groups_eq : (geometry d₂.sb).groups = p.groups := by
  have hbpg : (geometry d.sb).bpg ≤ bs * 8 := hc.valid.2.2.2.2.1
  have hblocks := (h.counts hc hs hp).1
  have hsame := h.same.1
  have hbs : bs * 8 = 32768 := by decide
  have hmul : p.groups * (geometry d.sb).bpg ≤ maxGroups * 32768 := Nat.mul_le_mul hp.groups (by omega)
  have hmax : maxGroups * 32768 < 2 ^ 31 := by decide
  have hfits := hp.fits
  have hlast := hp.last
  have hcount := hp.pos
  show ((geometry d₂.sb).blocks + (geometry d₂.sb).bpg - 1) % 2 ^ 32 /
    (geometry d₂.sb).bpg = p.groups
  rw [hblocks, hsame]
  refine Nat.div_eq_of_lt_le ?_ ?_
  · have hsucc : p.groups * (geometry d.sb).bpg =
        (p.groups - 1) * (geometry d.sb).bpg + (geometry d.sb).bpg := by
      rw [← Nat.succ_mul, Nat.succ_eq_add_one, Nat.sub_add_cancel hcount]
    omega
  · rw [Nat.add_mul]
    omega

/-! ## Its groups -/

omit hc hs hp in
theorem Grown.places_zero : blockBitmap (blockAt d₂ 1) 0 = blockBitmap (blockAt d 1) 0 ∧
    inodeBitmap (blockAt d₂ 1) 0 = inodeBitmap (blockAt d 1) 0 ∧
      inodeTable (blockAt d₂ 1) 0 = inodeTable (blockAt d 1) 0 := by
  have hread : ∀ o, o + 4 ≤ 12 → r32 (blockAt d₂ 1) o = r32 (blockAt d 1) o := fun o ho => r32_congr fun i hi => by
    have hbs : bs = 4096 := rfl
    rw [h.gdt _ (by omega), h.described.places _ (by omega)]
  exact ⟨hread _ (by decide), hread _ (by decide), hread _ (by decide)⟩

omit hc hs in
theorem Grown.desc_in (hg : g < p.groups) {o : Nat} (ho : o < descSize) :
    blockAt d₂ 1 (g * descSize + o) = s.gdt (g * descSize + o) := by
  have hmax : g * descSize + descSize ≤ maxGroups * descSize := by
    rw [← Nat.succ_mul]
    exact Nat.mul_le_mul_right _ (le_trans hg hp.groups)
  have hbs : maxGroups * descSize ≤ bs := by decide
  exact h.gdt _ (by omega)

omit hc hs in
theorem Grown.places_new (hpos : 0 < g) (hg : g < p.groups) : blockBitmap (blockAt d₂ 1) g = newMap d.sb g ∧
    inodeBitmap (blockAt d₂ 1) g = newMap d.sb g + 1 ∧ inodeTable (blockAt d₂ 1) g = newMap d.sb g + 2 := by
  have hsize : descSize = 32 := rfl
  obtain ⟨hbb, hib, hit⟩ := h.described.new g hpos hg
  have hread : ∀ o, o + 4 ≤ descSize →
      r32 (blockAt d₂ 1) (g * descSize + o) = r32 s.gdt (g * descSize + o) := fun o ho =>
    r32_congr fun i hi => by
      rw [Nat.add_assoc]
      exact h.desc_in hp hg (by omega)
  exact ⟨(hread 0 (by omega)).trans hbb, (hread 4 (by omega)).trans hib, (hread 8 (by omega)).trans hit⟩

theorem Grown.size_eq (g : Nat) :
    groupEnd (geometry d₂.sb) g - groupStart (geometry d₂.sb) g = groupValid d.sb p g := by
  rw [groupEnd, groupStart, h.same.1, (h.counts hc hs hp).1]
  show _ = min (p.targetBlocks - g * (geometry d.sb).bpg) (geometry d.sb).bpg
  omega

omit hc hs hp h in
theorem groupValid_zero (hp : Planned d.sb p) : groupValid d.sb p 0 = group0End d.sb p := by
  show min (p.targetBlocks - 0 * (geometry d.sb).bpg) (geometry d.sb).bpg = _
  rw [Nat.zero_mul, group0End]
  split
  · rename_i hone
    have hfits := hp.fits
    rw [hone, Nat.one_mul] at hfits
    exact Nat.min_eq_left hfits
  · have hlast := hp.last
    have hpos := hp.pos
    have hmul : (geometry d.sb).bpg ≤ (p.groups - 1) * (geometry d.sb).bpg :=
      Nat.le_mul_of_pos_left _ (by omega)
    exact Nat.min_eq_right (by omega)

theorem Grown.zeroBlocks_eq (hg : g < p.groups) : zeroBlocks d₂ g = freeIn d p g := by
  have hbpg : (geometry d.sb).bpg ≤ bs * 8 := hc.valid.2.2.2.2.1
  rw [zeroBlocks, h.size_eq hc hs hp, freeIn]
  split
  · rename_i hzero
    have hle := hp.le_group0End (hc.blocks_le_bpg hs.groups)
    have hend := hp.group0End_le
    have habove := hs.above.1
    rw [hzero, h.places_zero.1, h.block _ habove, groupValid_zero hp, zeroBlocks_zero hc hs]
    have hsum : group0End d.sb p = (geometry d.sb).blocks +
      (group0End d.sb p - (geometry d.sb).blocks) := by omega
    conv_lhs => rw [hsum]
    refine zeros_add (fun k hk => ?_) fun k hk hk' => ?_
    · rw [h.laid.map k (by omega), decide_eq_true (by omega), Bool.and_true]
    · rw [h.laid.map k (by omega), decide_eq_false (by omega), Bool.and_false]
  · rename_i hne
    have hpos := Nat.pos_of_ne_zero hne
    have hroom := h.laid.room g hpos hg
    have hnew : (geometry d.sb).bpg ≤ newMap d.sb g := le_newMap hpos
    have hone := hc.one
    have hle := hc.blocks_le_bpg hs.groups
    have hvalid := (newMap_lt hroom).2.2
    rw [(h.places_new hp hpos hg).1, h.block _ (by omega)]
    have hsum : groupValid d.sb p g = groupTaken d.sb g +
      (groupValid d.sb p g - groupTaken d.sb g) := by omega
    conv_lhs => rw [hsum]
    refine (zeros_add (fun _ _ => rfl) fun k hk hk' => ?_).trans ?_
    · rw [h.laid.blockMap g hpos hg k (by omega)]
      exact decide_eq_false (by omega)
    · rw [zeros_ones fun k hk => ?_, Nat.zero_add]
      rw [h.laid.blockMap g hpos hg k (by omega)]
      exact decide_eq_true (by omega)

theorem Grown.zeroInodes_eq (hg : g < p.groups) :
    zeroInodes d₂ g = if g = 0 then zeroInodes d 0 else (geometry d.sb).ipg := by
  have hipg : (geometry d.sb).ipg ≤ bs * 8 := hc.valid.2.2.2.2.2.1
  have hcount : groupInodes (geometry d₂.sb) g = (geometry d.sb).ipg := by
    have hnext := Nat.mul_le_mul_right (geometry d.sb).ipg (Nat.succ_le_of_lt hg)
    rw [Nat.succ_mul] at hnext
    rw [groupInodes, (h.counts hc hs hp).2.1, h.same.2.1]
    omega
  rw [zeroInodes, hcount]
  split
  · rename_i hzero
    rw [hzero, h.places_zero.2.1, h.block _ hs.above.2.1, h.laid.kept.inodeMap hc hs, zeroInodes,
      groupInodes, hs.inodes,
      Nat.zero_mul, Nat.sub_zero, Nat.min_self]
  · rename_i hne
    have hpos := Nat.pos_of_ne_zero hne
    have hnew : (geometry d.sb).bpg ≤ newMap d.sb g := le_newMap hpos
    have hone := hc.one
    have hle := hc.blocks_le_bpg hs.groups
    rw [(h.places_new hp hpos hg).2.1, h.block _ (by omega)]
    have hall : zeros (blockAt d₁ (newMap d.sb g + 1)) (0 + (geometry d.sb).ipg) =
        zeros (blockAt d₁ (newMap d.sb g + 1)) 0 + (geometry d.sb).ipg :=
      zeros_add (fun _ _ => rfl) fun k _ hk => by
        rw [h.laid.inodeMap g hpos hg k (by omega)]
        exact decide_eq_false (by omega)
    rwa [zeros_ones fun k hk => absurd hk (Nat.not_lt_zero k), Nat.zero_add] at hall

theorem Grown.newGroup (hpos : 0 < g) (hg : g < p.groups) : NewGroup d₂ g := by
  obtain ⟨hbb, hib, hit⟩ := h.places_new hp hpos hg
  have hroom := h.laid.room g hpos hg
  obtain ⟨hge, hlt, hvalid⟩ := newMap_lt hroom
  have hbpg : (geometry d.sb).bpg ≤ bs * 8 := hc.valid.2.2.2.2.1
  have hipg : (geometry d.sb).ipg ≤ bs * 8 := hc.valid.2.2.2.2.2.1
  have hnew : (geometry d.sb).bpg ≤ newMap d.sb g := le_newMap hpos
  have hsize := h.size_eq hc hs hp g
  obtain ⟨hsame, hipg', -, -, htable⟩ := h.same
  have hstart : groupStart (geometry d₂.sb) g = g * (geometry d.sb).bpg := by rw [groupStart, hsame]
  refine ⟨?_, by rw [hib, hbb], by rw [hit, hbb], fun k hk => ?_, fun k hk => ?_⟩
  · rw [Placed, hbb, hib, hit]
    omega
  · rw [hbb, htable, newMap] at hk
    rw [hbb, h.block _ (by omega), h.laid.blockMap g hpos hg k ?_]
    · refine decide_eq_true ?_
      rw [groupTaken]
      omega
    · rw [groupTaken] at hroom
      omega
  · rw [hib, h.block _ (by omega), h.laid.inodeMap g hpos hg k (by omega)]
    exact decide_eq_false (by omega)

theorem Grown.counters (hg : g < p.groups) :
    Counters (blockAt d₂ 1) g (zeroBlocks d₂ g) (zeroInodes d₂ g) (if g = 0 then dirsIn d 0 else 0) := by
  have hsize : descSize = 32 := rfl
  have hread : ∀ o, o + 2 ≤ descSize →
      r16 (blockAt d₂ 1) (g * descSize + o) = r16 s.gdt (g * descSize + o) := fun o ho =>
    r16_congr (h.desc_in hp hg (by omega)) (by rw [Nat.add_assoc]; exact h.desc_in hp hg (by omega))
  have hfree := freeIn_lt hc hs hp g
  rw [h.zeroBlocks_eq hc hs hp hg, h.zeroInodes_eq hc hs hp hg]
  rw [freeIn] at hfree ⊢
  split
  · rename_i hzero
    subst hzero
    obtain ⟨hfb, hfi, hdirs⟩ := hc.counters 0 hc.groups.1
    rw [if_pos rfl] at hfree
    rw [Nat.zero_mul] at hfb hfi hdirs
    have hrest : ∀ o, 14 ≤ o → o + 2 ≤ 18 → r16 s.gdt o = r16 (blockAt d 1) o := fun o ho ho' =>
      r16_congr (h.described.rest _ (by omega) (by omega)) (h.described.rest _ (by omega) (by omega))
    refine ⟨?_, ?_, ?_⟩
    · rw [hread 12 (by omega), Nat.zero_mul, h.described.count, hfb, Nat.mod_eq_of_lt hfree]
    · rw [hread 14 (by omega), Nat.zero_mul, hrest _ (by omega) (by omega), hfi]
    · rw [hread 16 (by omega), Nat.zero_mul, hrest _ (by omega) (by omega), hdirs]
  · rename_i hne
    obtain ⟨hfb, hfi, hdirs⟩ := h.described.counters g (Nat.pos_of_ne_zero hne) hg
    exact ⟨(hread 12 (by omega)).trans hfb, (hread 14 (by omega)).trans hfi, (hread 16 (by omega)).trans hdirs⟩

/-! ## Its files -/

omit hp in
theorem Grown.inodeOn_eq {i : Nat} (hi : i < (geometry d.sb).ipg) : inodeOn d₂ i = inodeOn d₁ i := by
  have hkept := h.laid.kept
  obtain ⟨-, hipg, hsize, -, -⟩ := h.same
  obtain ⟨⟨hge, -⟩, -⟩ := hs.inodeBlock_in hc hi
  have htwo := hs.prefix_le
  have hoff : inodeOff (geometry d₂.sb) (i + 1) = inodeOff (geometry d₁.sb) (i + 1) := by
    rw [inodeOff, inodeOff, hkept.super, hipg, hsize]
  have hplace : ∀ geo : Geometry, geo.ipg = (geometry d.sb).ipg →
      geo.inodeSize = (geometry d.sb).inodeSize → ∀ gdt, inodeTable gdt 0 = inodeTable (blockAt d 1) 0 →
        inodeBlock geo gdt (i + 1) = inodeBlock (geometry d.sb) (blockAt d 1) (i + 1) := by
    intro geo hipg hsize gdt htable
    rw [inodeBlock, inodeBlock, hipg, hsize, Nat.add_sub_cancel, Nat.div_eq_of_lt hi, htable]
  have hold : inodeTable (blockAt d₁ 1) 0 = inodeTable (blockAt d 1) 0 := hkept.r32_eq (by decide)
  rw [inodeOn, inodeOn, inodeAt, inodeAt, hoff, hplace _ hipg hsize _ h.places_zero.2.2,
    hplace _ (by rw [hkept.super]) (by rw [hkept.super]) _ hold, h.block _ (by omega)]

omit hp in
theorem Grown.reached {i b : Nat} (hi : AllocatedOn d i)
    (hb : b ∈ Install.reached d (geometry d.sb) (blockAt d 1) (i + 1)) : blockAt d₂ b = blockAt d b := by
  have hmeta : b ∉ metadata (geometry d.sb) (blockAt d 1) := fun hmeta =>
    (nodup_append.mp hc.nodup).2.2 b hmeta b (mem_flatMap.mpr ⟨i, mem_allocatedInodes.mpr hi, hb⟩) rfl
  have hlow : prefixEnd (blockAt d 1) 0 ≤ b :=
    Nat.le_of_not_lt fun hlt => hmeta (groupMeta_sub hc.groups.1 (low_mem hlt))
  have htwo := hs.prefix_le
  rw [h.block b (by omega), h.laid.kept.reached hc hs hi hb]

/-- The file system is a larger one with the files of the old one. -/
theorem Grown.extended (hdev : p.targetBlocks * spb ≤ sectors) : Extended sectors d d₂ := by
  have hkept := h.laid.kept
  obtain ⟨hbpg, hipg, hsize, hfirst, -⟩ := h.same
  obtain ⟨hblocks, hinodes, hfb, hfi⟩ := h.counts hc hs hp
  have hgroups := h.groups_eq hc hs hp
  obtain ⟨hbb, hib, hit⟩ := h.places_zero
  refine ⟨?_, ?_, hbpg, hipg, hsize, hfirst, ?_, ?_, ?_, ?_, hbb, hib, hit, fun k hk => ?_, fun k hk => ?_,
    fun i hi => ?_, fun i hi b hb => h.reached hc hs hi hb, fun g hpos hg => ?_, fun g hg => ?_, ?_⟩
  · obtain ⟨h1, h2, h3, h4, h5, h6⟩ := hc.supported
    rw [supported, h.r16_eq (by omega) (by omega), h.r32_eq (by omega) (by omega), h.r32_eq (by omega) (by omega),
      h.r32_eq (by omega) (by omega), h.r32_eq (by omega) (by omega), h.r32_eq (by omega) (by omega)]
    exact ⟨h1, h2, h3, h4, h5, h6⟩
  · have hstate : r16 d₂.sb 58 = r16 (growSuper d.sb p s.freeBlocks) 58 :=
      r16_congr (h.super _ (by decide)) (h.super _ (by decide))
    rw [StateClean, hstate]
    exact growSuper_state hc.state
  · rw [hblocks]
    exact hp.blocks
  · rwa [hblocks]
  · rw [hgroups]
    exact ⟨hp.pos, hp.groups⟩
  · rw [hinodes, hgroups]
  · have hle := hc.blocks_le_bpg hs.groups
    have hbpg : (geometry d.sb).bpg ≤ bs * 8 := hc.valid.2.2.2.2.1
    rw [h.block _ hs.above.1, h.laid.map k (by omega), decide_eq_true (by omega), Bool.and_true]
  · rw [h.block _ hs.above.2.1, hkept.inodeMap hc hs]
  · rw [h.inodeOn_eq hc hs hi]
    exact hkept.inode hc hs hi
  · exact h.newGroup hc hs hp hpos (hgroups ▸ hg)
  · exact h.counters hc hs hp (hgroups ▸ hg)
  · rw [hgroups, hfb, hfi]
    constructor
    · rw [h.described.free_eq hc hs hp]
      exact Finset.sum_congr rfl fun g hg => (h.zeroBlocks_eq hc hs hp (Finset.mem_range.mp hg)).symm
    · rw [Finset.sum_congr rfl fun g hg => h.zeroInodes_eq hc hs hp (Finset.mem_range.mp hg), Finset.range_eq_Ico,
        Finset.sum_eq_sum_Ico_succ_bot hp.pos, if_pos rfl]
      rw [Finset.sum_congr rfl fun g hg => if_neg (Nat.ne_of_gt (Finset.mem_Ico.mp hg).1),
        Finset.sum_const, Nat.card_Ico, smul_eq_mul]

end

/-! ## The plan -/

section

variable {sb : Buf} {target blocks : Nat}

theorem groupsFor_bounds (hpos : 0 < blocks) (hbpg : 0 < (geometry sb).bpg) : 0 < groupsFor sb blocks ∧
    (groupsFor sb blocks - 1) * (geometry sb).bpg < blocks ∧ blocks ≤ groupsFor sb blocks * (geometry sb).bpg := by
  have hdiv : groupsFor sb blocks = (blocks + (geometry sb).bpg - 1) / (geometry sb).bpg := rfl
  have hmod := Nat.div_add_mod' (blocks + (geometry sb).bpg - 1) (geometry sb).bpg
  have hlt := Nat.mod_lt (blocks + (geometry sb).bpg - 1) hbpg
  rw [← hdiv] at hmod
  have hone : 0 < groupsFor sb blocks := by
    exact Nat.div_pos (by omega) hbpg
  have hsucc : groupsFor sb blocks * (geometry sb).bpg =
      (groupsFor sb blocks - 1) * (geometry sb).bpg + (geometry sb).bpg := by
    rw [← Nat.succ_mul, Nat.succ_eq_add_one, Nat.sub_add_cancel hone]
  exact ⟨hone, by omega, by omega⟩

theorem partitionBlocks_le (sb : Buf) (target : Nat) : partitionBlocks sb target ≤ target / spb ∧
    partitionBlocks sb target ≤ maxGroups * (geometry sb).bpg ∧ partitionBlocks sb target < 2 ^ 32 := by
  have hle : partitionBlocks sb target ≤ min (target / spb) (maxGroups * (geometry sb).bpg) := Nat.min_le_left _ _
  have hlt : partitionBlocks sb target ≤ 2 ^ 32 - 1 := Nat.min_le_right _ _
  omega

/-- The number of groups is in the limits of the descriptor table. -/
theorem groupsFor_le (hmore : 0 < partitionBlocks sb target) (hbpg : 0 < (geometry sb).bpg) :
    groupsFor sb (partitionBlocks sb target) ≤ maxGroups := by
  obtain ⟨-, hle, -⟩ := partitionBlocks_le sb target
  obtain ⟨-, hlt, -⟩ := groupsFor_bounds hmore hbpg
  by_contra hmany
  have hmul := Nat.mul_le_mul_right (geometry sb).bpg
    (show maxGroups ≤ groupsFor sb (partitionBlocks sb target) - 1 by omega)
  omega

theorem plan_planned (hbpg : 0 < (geometry sb).bpg) (hone : (geometry sb).blocks ≤ (geometry sb).bpg)
    (hmore : (geometry sb).blocks < partitionBlocks sb target) : Planned sb (plan sb (partitionBlocks sb target)) ∧
      (plan sb (partitionBlocks sb target)).targetBlocks ≤ target / spb ∧
      ((geometry sb).blocks < (geometry sb).bpg →
        (geometry sb).blocks < (plan sb (partitionBlocks sb target)).targetBlocks) := by
  have hmany := groupsFor_le (show 0 < partitionBlocks sb target by omega) hbpg
  obtain ⟨hpos, hlast, hfits⟩ := groupsFor_bounds (show 0 < partitionBlocks sb target by omega) hbpg
  obtain ⟨hle, -, h32⟩ := partitionBlocks_le sb target
  rw [plan]
  split
  · rename_i hdrop
    have hmul : (geometry sb).bpg ≤ (groupsFor sb (partitionBlocks sb target) - 1) * (geometry sb).bpg :=
      Nat.le_mul_of_pos_left _ (by omega)
    show Planned sb ⟨groupsFor sb (partitionBlocks sb target) - 1,
        (groupsFor sb (partitionBlocks sb target) - 1) * (geometry sb).bpg⟩ ∧
      (groupsFor sb (partitionBlocks sb target) - 1) * (geometry sb).bpg ≤ target / spb ∧
      ((geometry sb).blocks < (geometry sb).bpg →
        (geometry sb).blocks < (groupsFor sb (partitionBlocks sb target) - 1) * (geometry sb).bpg)
    refine ⟨⟨Nat.sub_pos_of_lt hdrop.1, le_trans (Nat.sub_le _ _) hmany, le_trans hone hmul, ?_, le_refl _,
      lt_trans hlast h32⟩, le_trans (le_of_lt hlast) hle, fun hlt => lt_of_lt_of_le hlt hmul⟩
    exact Nat.mul_lt_mul_of_pos_right (Nat.sub_lt (Nat.sub_pos_of_lt hdrop.1) Nat.one_pos) hbpg
  · exact ⟨⟨hpos, hmany, le_of_lt hmore, hlast, hfits, h32⟩, hle, fun _ => hmore⟩

end

end Lorica.Proof.Install
