import Lorica.Proof.Install.Scan

/-!
# ext2_repair: bitmaps and counters

`fillBits` sets the bits that are missing in a bitmap and counts those that are left
(`fillBits_spec`). In check mode `reconcile` compares (`reconcile_gets`); in repair mode it
writes the bitmaps of one group after the other, each a block that no other group uses
(`reconcile_ends`).
-/

namespace Lorica.Proof.Install

open Lorica.Impl.Install Disk List

variable {d d' : Disk} {r : Repair}

/-! ## One bitmap -/

/-- The number of bits that are not set. -/
def zeros (m : Buf) (n : Nat) : Nat := (range n).countP fun i => !bit m i

variable {n first i b g dirs j : Nat} {refs buf gdt : Buf} {f fb fi : Fill} {s : Totals}

theorem zeros_congr {m m' : Buf} (h : ∀ i < n, bit m i = bit m' i) : zeros m n = zeros m' n :=
  countP_congr fun i hi => by rw [h i (mem_range.mp hi)]

/-- What `fillBits` makes of a map, from bit `i` on. -/
structure Filled (refs : Buf) (first i n : Nat) (f f' : Fill) : Prop where
  bits : ∀ k, bit f'.map k = true ↔ bit f.map k = true ∨ i ≤ k ∧ k < i + n ∧ bit refs (first + k) = true
  free : f'.free = f.free + (range' i n).countP fun k => !bit f'.map k
  fixed : f.fixed ≤ f'.fixed
  same : f'.fixed = f.fixed → f'.map = f.map

theorem Filled.refl (f : Fill) : Filled refs first i 0 f f :=
  ⟨fun k => ⟨.inl, fun h => h.resolve_right (by omega)⟩, rfl, le_refl _, fun _ => rfl⟩

theorem Filled.trans {m : Nat} {f' f'' : Fill} (h : Filled refs first i n f f')
    (h' : Filled refs first (i + n) m f' f'') : Filled refs first i (n + m) f f'' := by
  refine ⟨fun k => ?_, ?_, le_trans h.fixed h'.fixed, fun heq => ?_⟩
  · rw [h'.bits, h.bits, or_assoc]
    refine or_congr_right ⟨?_, fun hk => ?_⟩
    · rintro (⟨h1, h2, hb⟩ | ⟨h1, h2, hb⟩)
      · exact ⟨h1, by omega, hb⟩
      · exact ⟨by omega, by omega, hb⟩
    · by_cases hlt : k < i + n
      · exact .inl ⟨hk.1, hlt, hk.2.2⟩
      · exact .inr ⟨by omega, by omega, hk.2.2⟩
  · -- the later rounds do not change the earlier bits
    have hearly : (range' i n).countP (fun k => !bit f'.map k) = (range' i n).countP fun k => !bit f''.map k := by
      refine countP_congr fun k hk => ?_
      have hk := mem_range'_1.mp hk
      have hbit : bit f''.map k = bit f'.map k := by
        rw [Bool.eq_iff_iff, h'.bits]
        exact ⟨fun hor => hor.resolve_right (by omega), .inl⟩
      rw [hbit]
    rw [h'.free, h.free, hearly, range'_append_1.symm, countP_append, Nat.add_assoc]
  · have h1 := h.fixed
    have h2 := h'.fixed
    exact (h'.same (by omega)).trans (h.same (by omega))

theorem filled_one : Filled refs first i 1 f (countBit i (fillBit refs first i f)) := by
  have hmap : (countBit i (fillBit refs first i f)).map = (fillBit refs first i f).map := by
    rw [countBit]
    split <;> rfl
  have hfixed : (countBit i (fillBit refs first i f)).fixed = (fillBit refs first i f).fixed := by
    rw [countBit]
    split <;> rfl
  have hfree : (fillBit refs first i f).free = f.free := by
    rw [fillBit]
    split <;> rfl
  refine ⟨fun k => ?_, ?_, ?_, ?_⟩
  · rw [hmap, fillBit]
    split
    · rename_i hset
      rw [bit_setbit, Bool.or_eq_true, decide_eq_true_iff]
      refine or_congr_right ⟨?_, fun hk => by omega⟩
      rintro rfl
      exact ⟨le_refl _, by omega, hset.1⟩
    · rename_i hset
      refine ⟨.inl, fun h => h.elim id fun hk => ?_⟩
      obtain rfl : k = i := by omega
      by_contra hb
      exact hset ⟨hk.2.2, Bool.eq_false_of_not_eq_true hb⟩
  · rw [countBit]
    split
    · rename_i hb
      simp [hfree, hb]
    · rename_i hb
      simp [hfree, hb]
  · rw [hfixed, fillBit]
    split
    · exact Nat.le_succ _
    · exact le_refl _
  · rw [hfixed, hmap, fillBit]
    split
    · exact fun h => absurd h (Nat.succ_ne_self _)
    · exact fun _ => rfl

theorem fillBits_spec (refs : Buf) (first n i : Nat) (f : Fill) :
    Filled refs first i n f (fillBits refs first n i f) := by
  induction n generalizing i f with
  | zero => exact .refl f
  | succ n ih =>
    have h := filled_one.trans (ih (i + 1) (countBit i (fillBit refs first i f)))
    rwa [Nat.add_comm 1 n] at h

/-- If all bits are there, none is set. -/
theorem fillBits_fixed (h : ∀ k, i ≤ k → k < i + n → bit refs (first + k) = true → bit f.map k = true) :
    (fillBits refs first n i f).fixed = f.fixed := by
  induction n generalizing i f with
  | zero => rfl
  | succ n ih =>
    have hnone : fillBit refs first i f = f := by
      rw [fillBit, if_neg fun hb => ?_]
      have hset := h i (le_refl i) (by omega) hb.1
      rw [hb.2] at hset
      cases hset
    have hcount : (countBit i f).map = f.map ∧ (countBit i f).fixed = f.fixed := by
      rw [countBit]
      split <;> exact ⟨rfl, rfl⟩
    rw [fillBits, hnone, ih, hcount.2]
    intro k hk hk' hb
    rw [hcount.1]
    exact h k (by omega) (by omega) hb

/-! ## Writing -/

/-- If the program ends well, its result and the disk are as `Q` says. -/
def Ends {α : Type} (p : Rep α) (d : Disk) (Q : α → Disk → Prop) : Prop :=
  Try.WP (Allows true) p d Q (fun _ _ => True) fun _ _ => True

theorem Gets.ends {α : Type} {p : Rep α} {P : α → Prop} (h : Gets p d P) : Ends p d fun a d' => d' = d ∧ P a :=
  Try.WP.weaken h (fun _ _ h => h) (fun _ _ _ => trivial) fun _ _ _ => trivial

theorem writeCompared_ends {sectors sector count : Nat} :
    Ends (writeCompared sectors sector count buf) d fun _ d' => d' = d.overwrite (sector * 512) (count * 512) buf := by
  have hwrite : Ends (rwWrite sectors sector count buf) d fun _ d' =>
      d' = d.overwrite (sector * 512) (count * 512) buf := by
    rw [rwWrite]
    split
    · exact Try.WP.throw trivial
    refine Try.WP.lift_bind (Q := fun ok d' => ok = false ∨ d' = d.overwrite (sector * 512) (count * 512) buf) ?_
      fun ok d' h => ?_
    · exact Dev.WP.write trivial (fun _ => .inr rfl) fun _ _ => .inl rfl
    · cases ok with
      | false => exact Try.WP.throw trivial
      | true => exact Try.WP.pure (h.resolve_left Bool.false_ne_true.symm)
  refine Try.WP.bind hwrite fun _ d1 h1 => Try.WP.bind rwRead_gets.ends fun _ d2 h2 => ?_
  split
  · exact Try.WP.pure (h2.1.trans h1)
  · exact Try.WP.throw trivial

theorem writeBlock_ends :
    Ends (writeBlock r b buf) d fun _ d' => d' = d.overwrite (b * spb * 512) (spb * 512) buf :=
  Try.WP.adapt writeCompared_ends

theorem blockAt_overwrite_ne {b' : Nat} (h : b' ≠ b) :
    blockAt (d.overwrite (b * spb * 512) (spb * 512) buf) b' = blockAt d b' := by
  refine slice_congr fun i hi hi' => overwrite_out ?_
  simp only [spb] at hi hi' ⊢
  omega

theorem blockAt_overwrite (hi : i < bs) : blockAt (d.overwrite (b * spb * 512) (spb * 512) buf) b i = buf i := by
  have hi' : i < spb * 512 := hi
  rw [blockAt, slice_of_lt hi', overwrite_in (by omega) (by omega), Nat.add_sub_cancel_left]

theorem blockAt_overwrite_block {d' : Disk} :
    blockAt (d.overwrite (b * spb * 512) (spb * 512) (blockAt d' b)) b = blockAt d' b := by
  funext i
  by_cases hi : i < spb * 512
  · exact blockAt_overwrite hi
  · exact (if_neg hi).trans (if_neg hi).symm

/-- The block `b` has been written, as the bitmap `m`. -/
structure Written (d : Disk) (b : Nat) (m : Buf) (d' : Disk) : Prop where
  size : d'.size = d.size
  other : ∀ b' ≠ b, blockAt d' b' = blockAt d b'
  bits : ∀ k < bs * 8, bit (blockAt d' b) k = bit m k

/-- In repair mode the bitmap on the disk becomes the one in memory. -/
theorem reconcileMap_ends : Ends (reconcileMap true r b refs first n) d (fun f d' =>
    f = fillBits refs first n 0 ⟨blockAt d b, 0, 0⟩ ∧ Written d b f.map d') := by
  refine Try.WP.bind readBlock_gets.ends fun block d1 h => ?_
  obtain ⟨rfl, -, rfl⟩ := h
  dsimp only
  split
  · refine Try.WP.bind writeBlock_ends fun _ d' h => Try.WP.pure ⟨rfl, ?_⟩
    subst h
    exact ⟨rfl, fun b' hb => blockAt_overwrite_ne hb, fun k hk => bit_congr (blockAt_overwrite (by omega))⟩
  · rename_i hfixed
    rw [not_and_or, not_not] at hfixed
    have hsame := (fillBits_spec refs first n 0 ⟨blockAt d1 b, 0, 0⟩).same (hfixed.resolve_right fun h => h rfl)
    exact Try.WP.pure ⟨rfl, rfl, fun _ _ => rfl, fun k _ => by rw [hsame]⟩

theorem reconcileMap_gets :
    Gets (reconcileMap false r b refs first n) d (fun f => f = fillBits refs first n 0 ⟨blockAt d b, 0, 0⟩) := by
  refine .bind readBlock_gets fun block h => ?_
  obtain ⟨-, rfl⟩ := h
  rw [if_neg (by simp)]
  exact .pure rfl

/-! ## Numbers -/

section

variable {p : Buf} {o o' v : Nat}

theorem r16_w16 : r16 (w16 p o v) o = v % 65536 := by
  have hlo : (w16 p o v o).toNat = v % 256 := by
    rw [w16, if_pos rfl, UInt8.toNat_ofNat']
  have hhi : (w16 p o v (o + 1)).toNat = v / 256 % 256 := by
    rw [w16, if_neg (by omega), if_pos rfl, UInt8.toNat_ofNat']
  rw [r16, hhi]
  omega

theorem w16_out (h : o' < o ∨ o + 2 ≤ o') : w16 p o v o' = p o' := by
  rw [w16, if_neg (by omega), if_neg (by omega)]

theorem r16_congr {p' : Buf} (h0 : p o = p' o') (h1 : p (o + 1) = p' (o' + 1)) : r16 p o = r16 p' o' := by
  rw [r16, r16, h0, h1]

theorem r16_w16_ne (h : o' + 2 ≤ o ∨ o + 2 ≤ o') : r16 (w16 p o v) o' = r16 p o' :=
  r16_congr (w16_out (by omega)) (w16_out (by omega))

theorem r32_congr {p' : Buf} (h : ∀ i < 4, p (o + i) = p' (o' + i)) : r32 p o = r32 p' o' := by
  have h0 : r16 p o = r16 p' o' := r16_congr (h 0 (by omega)) (h 1 (by omega))
  have h2 : r16 p (o + 2) = r16 p' (o' + 2) := r16_congr (h 2 (by omega)) (h 3 (by omega))
  rw [r32, r32, h0, h2]

theorem w32_out (h : o' < o ∨ o + 4 ≤ o') : w32 p o v o' = p o' := by
  rw [w32, w16_out (by omega), w16_out (by omega)]

theorem r32_w32 (hv : v < 2 ^ 32) : r32 (w32 p o v) o = v := by
  rw [r32, w32, r16_w16_ne (by omega), r16_w16, r16_w16]
  omega

end

/-! ## The groups -/

/-- The bitmaps of a group as they are to be. -/
def blockFill (d : Disk) (r : Repair) (g : Nat) : Fill :=
  fillBits r.blockRefs (groupStart r.geo g) (groupEnd r.geo g - groupStart r.geo g) 0
    ⟨blockAt d (blockBitmap r.gdt g), 0, 0⟩

def inodeFill (d : Disk) (r : Repair) (g : Nat) : Fill :=
  fillBits r.inodeAlloc (g * r.ipg) (groupInodes r.geo g) 0 ⟨blockAt d (inodeBitmap r.gdt g), 0, 0⟩

theorem blockFill_free (d : Disk) (r : Repair) (g : Nat) :
    (blockFill d r g).free = zeros (blockFill d r g).map (groupEnd r.geo g - groupStart r.geo g) := by
  rw [zeros, range_eq_range']
  exact (fillBits_spec _ _ _ 0 _).free.trans (Nat.zero_add _)

theorem inodeFill_free (d : Disk) (r : Repair) (g : Nat) :
    (inodeFill d r g).free = zeros (inodeFill d r g).map (groupInodes r.geo g) := by
  rw [zeros, range_eq_range']
  exact (fillBits_spec _ _ _ 0 _).free.trans (Nat.zero_add _)

theorem zeros_le (m : Buf) (n : Nat) : zeros m n ≤ n := by
  have := countP_le_length (p := fun i => !bit m i) (l := range n)
  rwa [length_range] at this

/-- The descriptor of group `g` outside its counters is not changed. -/
theorem groupCounters_out {fb fi o : Nat} (h : o < g * descSize + 12 ∨ g * descSize + 18 ≤ o) :
    groupCounters g fb fi dirs gdt o = gdt o := by
  rw [groupCounters, w16_out (by omega), w16_out (by omega), w16_out (by omega)]

/-- The counters in a descriptor. -/
structure Counters (gdt : Buf) (g fb fi dirs : Nat) : Prop where
  blocks : r16 gdt (g * descSize + 12) = fb
  inodes : r16 gdt (g * descSize + 14) = fi
  dirs : r16 gdt (g * descSize + 16) = dirs

theorem counters_of_not {fb fi : Nat} (h : ¬ countersDiffer g fb fi dirs gdt) : Counters gdt g fb fi dirs := by
  rw [countersDiffer, not_or, not_or, not_not, not_not, not_not] at h
  exact ⟨h.1, h.2.1, h.2.2⟩

theorem groupCounters_counters {fb fi : Nat} (hb : fb < 65536) (hi : fi < 65536)
    (hd : dirs < 65536) : Counters (groupCounters g fb fi dirs gdt) g fb fi dirs := by
  refine ⟨?_, ?_, ?_⟩
  · rw [groupCounters, r16_w16_ne (by omega), r16_w16_ne (by omega), r16_w16, Nat.mod_eq_of_lt hb]
  · rw [groupCounters, r16_w16_ne (by omega), r16_w16, Nat.mod_eq_of_lt hi]
  · rw [groupCounters, r16_w16, Nat.mod_eq_of_lt hd]

/-- The variables of `reconcile` are those of `r` but for what it changes. -/
structure Like (r r' : Repair) : Prop where
  geometry : r'.geo = r.geo
  sectors : r'.sectors = r.sectors
  sb : r'.sb = r.sb
  blockRefs : r'.blockRefs = r.blockRefs
  inodeAlloc : r'.inodeAlloc = r.inodeAlloc
  scanned : r'.scanned = r.scanned
  dirs : r'.dirsPerGroup = r.dirsPerGroup
  missingInodes : r'.missingInodes = r.missingInodes
  parsed : r'.parsed = r.parsed

theorem Like.refl (r : Repair) : Like r r := ⟨rfl, rfl, rfl, rfl, rfl, rfl, rfl, rfl, rfl⟩

theorem Like.countGroup {repair : Bool} (h : Like r s.r) : Like r (countGroup repair g fb fi s).r := by
  rw [Impl.Install.countGroup]
  dsimp only
  split
  · exact ⟨h.geometry, h.sectors, h.sb, h.blockRefs, h.inodeAlloc, h.scanned, h.dirs, h.missingInodes,
      h.parsed⟩
  · exact ⟨h.geometry, h.sectors, h.sb, h.blockRefs, h.inodeAlloc, h.scanned, h.dirs, h.missingInodes,
      h.parsed⟩

theorem countGroup_free {repair : Bool} : (countGroup repair g fb fi s).freeBlocks = s.freeBlocks + fb.free ∧
      (countGroup repair g fb fi s).freeInodes = s.freeInodes + fi.free := by
  rw [countGroup]
  split <;> exact ⟨rfl, rfl⟩

theorem countGroup_missing (repair : Bool) (g : Nat) (fb fi : Fill) (s : Totals) :
    (countGroup repair g fb fi s).r.missingBlocks = s.r.missingBlocks + fb.fixed := by
  rw [countGroup]
  split <;> rfl

/-- The bitmaps that `reconcile` writes are different blocks. -/
structure Separate (r : Repair) : Prop where
  maps : ∀ g < r.groups, ∀ g' < r.groups, blockBitmap r.gdt g ≠ inodeBitmap r.gdt g'
  groups : ∀ g < r.groups, ∀ g' < r.groups, g ≠ g' →
    blockBitmap r.gdt g ≠ blockBitmap r.gdt g' ∧ inodeBitmap r.gdt g ≠ inodeBitmap r.gdt g'

/-- The disk and the variables after `j` groups, in repair mode. -/
structure Repaired (d : Disk) (r : Repair) (j : Nat) (s : Totals) (d' : Disk) : Prop where
  like : Like r s.r
  size : d'.size = d.size
  other : ∀ b, (∀ g < j, b ≠ blockBitmap r.gdt g ∧ b ≠ inodeBitmap r.gdt g) → blockAt d' b = blockAt d b
  blocks : ∀ g < j, ∀ k < bs * 8, bit (blockAt d' (blockBitmap r.gdt g)) k = bit (blockFill d r g).map k
  inodes : ∀ g < j, ∀ k < bs * 8, bit (blockAt d' (inodeBitmap r.gdt g)) k = bit (inodeFill d r g).map k
  gdt : ∀ o, (∀ g < j, o < g * descSize + 12 ∨ g * descSize + 18 ≤ o) → s.r.gdt o = r.gdt o
  counters : ∀ g < j, Counters s.r.gdt g (blockFill d r g).free (inodeFill d r g).free (r.dirsPerGroup g)
  freeBlocks : s.freeBlocks = ∑ g ∈ Finset.range j, (blockFill d r g).free
  freeInodes : s.freeInodes = ∑ g ∈ Finset.range j, (inodeFill d r g).free

/-- The places of the bitmaps and tables are not among the counters. -/
theorem Repaired.places (h : Repaired d r j s d') (g : Nat) :
    blockBitmap s.r.gdt g = blockBitmap r.gdt g ∧ inodeBitmap s.r.gdt g = inodeBitmap r.gdt g ∧
      inodeTable s.r.gdt g = inodeTable r.gdt g := by
  have hword : ∀ o < 12, s.r.gdt (g * descSize + o) = r.gdt (g * descSize + o) := fun o ho => by
    refine h.gdt _ fun g' _ => ?_
    simp only [descSize]
    omega
  refine ⟨r32_congr fun i hi => hword i (by omega), r32_congr fun i hi => ?_, r32_congr fun i hi => ?_⟩
  · rw [Nat.add_assoc]
    exact hword _ (by omega)
  · rw [Nat.add_assoc]
    exact hword _ (by omega)

theorem countGroup_gdt_out {o : Nat}
    (h : o < g * descSize + 12 ∨ g * descSize + 18 ≤ o) : (countGroup true g fb fi s).r.gdt o = s.r.gdt o := by
  rw [countGroup]
  split
  · exact groupCounters_out h
  · rfl

theorem countGroup_counters (hb : fb.free < 65536) (hi : fi.free < 65536) (hd : s.r.dirsPerGroup g < 65536) :
    Counters (countGroup true g fb fi s).r.gdt g fb.free fi.free (s.r.dirsPerGroup g) := by
  rw [countGroup]
  split
  · exact groupCounters_counters hb hi hd
  · rename_i hdiff
    exact counters_of_not hdiff

theorem blockFill_lt (hbpg : r.bpg ≤ bs * 8) : (blockFill d r g).free < 65536 := by
  rw [blockFill_free]
  refine lt_of_le_of_lt (zeros_le _ _) ?_
  simp only [groupEnd, bs] at hbpg ⊢
  omega

theorem inodeFill_lt (hipg : r.ipg ≤ bs * 8) : (inodeFill d r g).free < 65536 := by
  rw [inodeFill_free]
  refine lt_of_le_of_lt (zeros_le _ _) ?_
  simp only [groupInodes, bs] at hipg ⊢
  omega

theorem Repaired.next {d1 d2 d3 : Disk} (hbpg : r.bpg ≤ bs * 8) (hipg : r.ipg ≤ bs * 8)
    (hdirs : r.dirsPerGroup j < 65536) (hsep : Separate r) (hj : j < r.groups) (h : Repaired d r j s d1)
    (h2 : Written d1 (blockBitmap r.gdt j) (blockFill d r j).map d2)
    (h3 : Written d2 (inodeBitmap r.gdt j) (inodeFill d r j).map d3) :
    Repaired d r (j + 1) (countGroup true j (blockFill d r j) (inodeFill d r j) s) d3 := by
  have hne := hsep.maps j hj j hj
  refine ⟨h.like.countGroup, by rw [h3.size, h2.size, h.size], fun b hb => ?_, fun g hg k hk => ?_, fun g hg k hk => ?_,
    fun o ho => ?_, fun g hg => ?_, ?_, ?_⟩
  · rw [h3.other b (hb j (by omega)).2, h2.other b (hb j (by omega)).1]
    exact h.other b fun g hg => hb g (by omega)
  · rcases Nat.lt_succ_iff_lt_or_eq.mp hg with hg | rfl
    · rw [h3.other _ (hsep.maps g (by omega) j hj), h2.other _ (hsep.groups g (by omega) j hj (by omega)).1]
      exact h.blocks g hg k hk
    · rw [h3.other _ hne, h2.bits k hk]
  · rcases Nat.lt_succ_iff_lt_or_eq.mp hg with hg | rfl
    · rw [h3.other _ (hsep.groups g (by omega) j hj (by omega)).2, h2.other _ (hsep.maps j hj g (by omega)).symm]
      exact h.inodes g hg k hk
    · exact h3.bits k hk
  · rw [countGroup_gdt_out (ho j (by omega))]
    exact h.gdt o fun g hg => ho g (by omega)
  · rcases Nat.lt_succ_iff_lt_or_eq.mp hg with hg | rfl
    · have hout : ∀ o, o < descSize →
        (countGroup true j (blockFill d r j) (inodeFill d r j) s).r.gdt (g * descSize + o) =
          s.r.gdt (g * descSize + o) := fun o ho => by
        refine countGroup_gdt_out (.inl ?_)
        simp only [descSize] at ho ⊢
        omega
      obtain ⟨h1, h2, h3⟩ := h.counters g hg
      refine ⟨.trans ?_ h1, .trans ?_ h2, .trans ?_ h3⟩
      · exact r16_congr (hout 12 (by decide)) (hout 13 (by decide))
      · exact r16_congr (hout 14 (by decide)) (hout 15 (by decide))
      · exact r16_congr (hout 16 (by decide)) (hout 17 (by decide))
    · rw [← h.like.dirs] at hdirs ⊢
      exact countGroup_counters (blockFill_lt hbpg) (inodeFill_lt hipg) hdirs
  · rw [countGroup_free.1, Finset.sum_range_succ, h.freeBlocks]
  · rw [countGroup_free.2, Finset.sum_range_succ, h.freeInodes]

/-- `reconcile` in repair mode. -/
theorem reconcile_ends (hbpg : r.bpg ≤ bs * 8) (hipg : r.ipg ≤ bs * 8) (hdirs : ∀ g, r.dirsPerGroup g < 65536)
    (hsep : Separate r) : Ends (reconcile true r) d (Repaired d r r.groups) := by
  have h := Try.WP.loop (M := machine) (A := Allows true) (E := fun (_ : Option String) _ => True)
      (C := fun _ _ => True)
    (f := reconcileGroup true) (n := r.groups) (i := 0) (x := ⟨r, 0, 0⟩) (s := d) (I := Repaired d r)
    ⟨.refl r, rfl, fun _ _ => rfl, by simp, by simp, fun _ _ => rfl, by simp, rfl, rfl⟩
    fun j _ hj s d1 hs => ?_
  · rwa [Nat.zero_add] at h
  have hj : j < r.groups := by omega
  obtain ⟨hbb, hib, -⟩ := hs.places j
  have hold : blockAt d1 (blockBitmap r.gdt j) = blockAt d (blockBitmap r.gdt j) :=
    hs.other _ fun g hg => ⟨(hsep.groups j hj g (by omega) (by omega)).1, hsep.maps j hj g (by omega)⟩
  have hold' : blockAt d1 (inodeBitmap r.gdt j) = blockAt d (inodeBitmap r.gdt j) :=
    hs.other _ fun g hg => ⟨(hsep.maps g (by omega) j hj).symm, (hsep.groups j hj g (by omega) (by omega)).2⟩
  refine Try.WP.bind reconcileMap_ends fun fb d2 h2 => Try.WP.bind reconcileMap_ends fun fi d3 h3 => Try.WP.pure ?_
  rw [hbb, hs.like.geometry, hs.like.blockRefs, hold] at h2
  obtain ⟨hfb, h2⟩ := h2
  rw [hib, hs.like.geometry, hs.like.inodeAlloc, h2.other _ (hsep.maps j hj j hj).symm, hold'] at h3
  obtain ⟨hfi, h3⟩ := h3
  obtain rfl : fb = blockFill d r j := hfb
  obtain rfl : fi = inodeFill d r j := hfi
  exact hs.next hbpg hipg (hdirs j) hsep hj h2 h3

/-- The variables after `j` groups, in check mode. -/
structure Compared (d : Disk) (r : Repair) (j : Nat) (s : Totals) : Prop where
  like : Like r s.r
  gdt : s.r.gdt = r.gdt
  missing : r.missingBlocks ≤ s.r.missingBlocks
  mismatches : r.counterMismatches ≤ s.r.counterMismatches
  clean : s.r.missingBlocks = r.missingBlocks ↔ ∀ g < j, (blockFill d r g).fixed = 0
  counters : s.r.counterMismatches = r.counterMismatches ↔ ∀ g < j,
    Counters r.gdt g (blockFill d r g).free (inodeFill d r g).free (r.dirsPerGroup g)
  freeBlocks : s.freeBlocks = ∑ g ∈ Finset.range j, (blockFill d r g).free
  freeInodes : s.freeInodes = ∑ g ∈ Finset.range j, (inodeFill d r g).free

theorem countGroup_check (g : Nat) (fb fi : Fill) (s : Totals) : (countGroup false g fb fi s).r.gdt = s.r.gdt ∧
      s.r.counterMismatches ≤ (countGroup false g fb fi s).r.counterMismatches ∧
      ((countGroup false g fb fi s).r.counterMismatches = s.r.counterMismatches ↔
        Counters s.r.gdt g fb.free fi.free (s.r.dirsPerGroup g)) := by
  rw [countGroup]
  split
  · rename_i hdiff
    refine ⟨rfl, Nat.le_succ _, fun h => absurd h (Nat.succ_ne_self _), fun h => ?_⟩
    rw [countersDiffer, h.blocks, h.inodes, h.dirs] at hdiff
    simp at hdiff
  · rename_i hdiff
    exact ⟨rfl, le_refl _, fun _ => counters_of_not hdiff, fun _ => rfl⟩

theorem Compared.next (h : Compared d r j s) :
    Compared d r (j + 1) (countGroup false j (blockFill d r j) (inodeFill d r j) s) := by
  obtain ⟨hgdt, hle, hsame⟩ := countGroup_check j (blockFill d r j) (inodeFill d r j) s
  have hmissing := countGroup_missing false j (blockFill d r j) (inodeFill d r j) s
  have h1 := h.missing
  have h2 := h.mismatches
  rw [h.gdt, h.like.dirs] at hsame
  refine ⟨h.like.countGroup, hgdt.trans h.gdt, by omega, le_trans h2 hle, ?_, ?_, ?_, ?_⟩
  · rw [Nat.forall_lt_succ_right, ← h.clean]
    omega
  · rw [Nat.forall_lt_succ_right, ← h.counters, ← hsame]
    omega
  · rw [countGroup_free.1, Finset.sum_range_succ, h.freeBlocks]
  · rw [countGroup_free.2, Finset.sum_range_succ, h.freeInodes]

/-- `reconcile` in check mode. -/
theorem reconcile_gets : Gets (reconcile false r) d (Compared d r r.groups) := by
  refine Gets.loop_zero (Compared d r)
    ⟨.refl r, rfl, le_refl _, le_refl _, by simp, by simp, rfl, rfl⟩ fun j _ s hs => ?_
  refine .bind reconcileMap_gets fun fb hfb => .bind reconcileMap_gets fun fi hfi => .pure ?_
  rw [hs.like.geometry, hs.gdt, hs.like.blockRefs] at hfb
  rw [hs.like.geometry, hs.gdt, hs.like.inodeAlloc] at hfi
  obtain rfl : fb = blockFill d r j := hfb
  obtain rfl : fi = inodeFill d r j := hfi
  exact hs.next

end Lorica.Proof.Install
