import Lorica.Proof.Install.Marks

/-!
# ext2_repair: the scan of all inodes

`load_inode_maps` takes over the bitmaps of the disk (`loadInodeMaps_gets`), and `scan_all`
goes over the inodes until a pass finds no new one. Each inode is scanned once, so that the
blocks that the scanned inodes reach are all different (`ScannedAll`), and in the end all
that are allocated have been scanned (`scanAll_gets`).
-/

namespace Lorica.Proof.Install

open Lorica.Impl.Install Disk List

variable {d : Disk} {r r₀ : Repair}

/-! ## The inode bitmaps -/

theorem bit_copyBits {block m : Buf} {first n i k : Nat} : bit (copyBits block first n i m) k = true ↔
      bit m k = true ∨ ∃ j, i ≤ j ∧ j < i + n ∧ k = first + j ∧ bit block j = true := by
  induction n generalizing i m with
  | zero =>
    refine ⟨.inl, fun h => h.elim id ?_⟩
    rintro ⟨j, hj, hj', -⟩
    omega
  | succ n ih =>
    have hone : bit (if bit block i = true then setbit m (first + i) else m) k = true ↔
        bit m k = true ∨ k = first + i ∧ bit block i = true := by
      split
      · rename_i hb
        simp [bit_setbit, hb]
      · rename_i hb
        simp [hb]
    rw [copyBits, ih, hone, or_assoc]
    refine or_congr_right ⟨?_, ?_⟩
    · rintro (⟨hk, hb⟩ | ⟨j, hj, hj', hk, hb⟩)
      · exact ⟨i, le_refl i, by omega, hk, hb⟩
      · exact ⟨j, by omega, by omega, hk, hb⟩
    · rintro ⟨j, hj, hj', hk, hb⟩
      rcases Nat.eq_or_lt_of_le hj with rfl | hlt
      · exact .inl ⟨hk, hb⟩
      · exact .inr ⟨j, hlt, by omega, hk, hb⟩

/-- The bit of the inode `k + 1` is set on the disk. -/
def OnDisk (d : Disk) (geo : Geometry) (gdt : Buf) (k : Nat) : Prop :=
  k < geo.inodes ∧ bit (blockAt d (inodeBitmap gdt (k / geo.ipg))) (k % geo.ipg) = true

/-- The inodes of a group, by their number in it. -/
theorem exists_groupInode (geo : Geometry) (hipg : 0 < geo.ipg) {g k : Nat} {P : Nat → Prop} :
    (∃ j < groupInodes geo g, k = g * geo.ipg + j ∧ P j) ↔ k < geo.inodes ∧ k / geo.ipg = g ∧ P (k % geo.ipg) := by
  rw [groupInodes]
  constructor
  · rintro ⟨j, hj, rfl, hp⟩
    have hlt : j < geo.ipg := by omega
    rw [Nat.mul_comm, Nat.mul_add_div hipg, Nat.mul_add_mod, Nat.div_eq_of_lt hlt, Nat.mod_eq_of_lt hlt, Nat.mul_comm]
    exact ⟨by omega, Nat.add_zero g, hp⟩
  · rintro ⟨hk, rfl, hp⟩
    have hdiv := Nat.div_add_mod' k geo.ipg
    have hmod := Nat.mod_lt k hipg
    exact ⟨k % geo.ipg, by omega, hdiv.symm, hp⟩

theorem loadInodeMaps_gets (hipg : 0 < r.ipg) : Gets (loadInodeMaps r) d (fun r' =>
    ∃ block alloc, r' = { r with block := block, inodeAlloc := alloc } ∧ ∀ k, bit alloc k = true ↔
      bit r.inodeAlloc k = true ∨ OnDisk d r.geo r.gdt k ∧ k / r.ipg < r.groups) := by
  refine Gets.loop_zero (fun j r' => ∃ block alloc, r' = { r with block := block, inodeAlloc := alloc } ∧ ∀ k,
    bit alloc k = true ↔ bit r.inodeAlloc k = true ∨ OnDisk d r.geo r.gdt k ∧ k / r.ipg < j)
    ⟨r.block, r.inodeAlloc, rfl, fun k => by simp⟩ fun j _ r' h => ?_
  obtain ⟨block, alloc, rfl, hbits⟩ := h
  refine .bind readBlock_gets fun block' hb => .pure ⟨_, _, rfl, fun k => ?_⟩
  obtain ⟨-, rfl⟩ := hb
  rw [bit_copyBits, hbits, or_assoc]
  refine or_congr_right ?_
  simp only [Nat.zero_le, true_and, Nat.zero_add]
  rw [exists_groupInode r.geo hipg (P := fun i => bit (blockAt d (inodeBitmap r.gdt j)) i = true)]
  constructor
  · rintro (⟨hk, hlt⟩ | ⟨hk, rfl, hb⟩)
    · exact ⟨hk, by omega⟩
    · exact ⟨⟨hk, hb⟩, Nat.lt_succ_self _⟩
  · rintro ⟨hk, hlt⟩
    rcases Nat.lt_succ_iff_lt_or_eq.mp hlt with hlt | rfl
    · exact .inl ⟨hk, hlt⟩
    · exact .inr ⟨hk.1, rfl, hk.2⟩

/-! ## All inodes -/

/-- The inodes `order` have been scanned, one after the other. -/
structure ScannedAll (d : Disk) (r₀ : Repair) (order : List Nat) (r : Repair) : Prop where
  walked : Walked { r₀ with scanned := r.scanned, dirsPerGroup := r.dirsPerGroup }
    (order.flatMap fun i => reached d r₀.geo r₀.gdt (i + 1)) r
  nodup : order.Nodup
  fresh : ∀ i ∈ order, bit r₀.scanned i = false ∧ i < r₀.inodes
  scanned : ∀ i, bit r.scanned i = true ↔ bit r₀.scanned i = true ∨ i ∈ order
  alloc : ∀ i ∈ order, bit r.inodeAlloc i = true
  dirs : ∀ g, r.dirsPerGroup g = r₀.dirsPerGroup g +
    order.countP fun i => IsDirectory r₀.geo (i + 1) (inodeAt d r₀.geo r₀.gdt (i + 1)) ∧ i / r₀.ipg = g
  fit : ∀ i ∈ order, Fit d r₀.geo (i + 1) (inodeAt d r₀.geo r₀.gdt (i + 1))
  parsed : ∀ i ∈ order, InScope r₀.geo (i + 1) (inodeAt d r₀.geo r₀.gdt (i + 1)) →
    modeOf (inodeAt d r₀.geo r₀.gdt (i + 1)) = sIfdir →
      ∀ p ∈ dirBlocks d (inodeAt d r₀.geo r₀.gdt (i + 1)), Parsed d r₀.inodeAlloc r p

theorem ScannedAll.nil (d : Disk) (r : Repair) : ScannedAll d r [] r :=
  ⟨.refl r, nodup_nil, forall_mem_nil _, fun _ => by simp, forall_mem_nil _, fun _ => rfl,
    forall_mem_nil _, forall_mem_nil _⟩

/-- What has been scanned and counted has no part in a walk. -/
theorem Walked.setScanned {l : List Nat} {s : Buf} {n : Nat → Nat}
    (h : Walked { r₀ with scanned := s, dirsPerGroup := n } l r) (s' : Buf) (n' : Nat → Nat) :
    Walked { r₀ with scanned := s', dirsPerGroup := n' } l { r with scanned := s', dirsPerGroup := n' } :=
  ⟨h.geometry, h.sectors, h.sb, h.gdt, rfl, rfl, h.missingBlocks, h.mismatches, h.marked, h.alloc, h.missing, h.same,
    h.parsed⟩

theorem ScannedAll.next {order : List Nat} {r' : Repair} {i : Nat} (h : ScannedAll d r₀ order r) (hi : i < r.inodes)
    (hnew : bit r.scanned i = false) (halloc : bit r.inodeAlloc i = true)
    (h' : ScannedInode d { r with scanned := setbit r.scanned i } (i + 1) r') : ScannedAll d r₀ (order ++ [i]) r' := by
  have hgeo : r.geo = r₀.geo := h.walked.geometry
  have hgdt : r.gdt = r₀.gdt := h.walked.gdt
  have hscanned : r'.scanned = setbit r.scanned i := h'.walked.scanned
  have hold : ¬ (bit r₀.scanned i = true ∨ i ∈ order) := fun hor => by
    rw [(h.scanned i).mpr hor] at hnew
    cases hnew
  rw [not_or, Bool.not_eq_true] at hold
  obtain ⟨hwalk, hdirs, hfit, hparsed⟩ := h'
  have hreached : reached d r₀.geo r₀.gdt (i + 1) = reached d r.geo r.gdt (i + 1) := by rw [hgeo, hgdt]
  simp only [hgeo, hgdt] at hparsed hdirs hfit
  refine ⟨?_, ?_, ?_, fun k => ?_, ?_, fun g => ?_, ?_, ?_⟩
  · rw [flatMap_append, flatMap_singleton, hscanned, hreached]
    exact (h.walked.setScanned _ _).trans hwalk
  · exact nodup_append.mpr ⟨h.nodup, nodup_singleton i,
      fun a ha b hb heq => hold.2 (mem_singleton.mp hb ▸ heq ▸ ha)⟩
  · exact forall_mem_append.mpr ⟨h.fresh, forall_mem_singleton.mpr ⟨hold.1, hgeo ▸ hi⟩⟩
  · rw [hscanned, bit_setbit, Bool.or_eq_true, h.scanned, decide_eq_true_iff, mem_append, mem_singleton,
      or_assoc]
  · exact forall_mem_append.mpr ⟨fun k hk => hwalk.alloc k (h.alloc k hk),
      forall_mem_singleton.mpr (hwalk.alloc i halloc)⟩
  · rw [hdirs, h.dirs, countP_append, countP_singleton, Nat.add_assoc, Nat.add_sub_cancel]
    simp
  · exact forall_mem_append.mpr ⟨h.fit, forall_mem_singleton.mpr hfit⟩
  · refine forall_mem_append.mpr ⟨fun k hk hin hdir p hp => ?_, forall_mem_singleton.mpr ?_⟩
    · exact Parsed.mono (by exact h.parsed k hk hin hdir p hp) (fun _ hb => hb) hwalk
    · exact fun hin hdir p hp => (hparsed hin hdir p hp).mono h.walked.alloc (.refl r')

/-- How many inodes have not been scanned. -/
def unscanned (r : Repair) : Nat := ((Finset.range r.inodes).filter fun i => bit r.scanned i = false).card

theorem unscanned_lt {r' : Repair} {i : Nat} (hgeo : r'.inodes = r.inodes) (hi : i < r.inodes)
    (hnew : bit r.scanned i = false) (hscanned : r'.scanned = setbit r.scanned i) : unscanned r' < unscanned r := by
  refine Finset.card_lt_card (Finset.ssubset_iff_of_subset (fun k hk => ?_) |>.mpr ⟨i, ?_, ?_⟩)
  · rw [Finset.mem_filter, hgeo, hscanned, bit_setbit, Bool.or_eq_false_iff] at hk
    exact Finset.mem_filter.mpr ⟨hk.1, hk.2.1⟩
  · exact Finset.mem_filter.mpr ⟨Finset.mem_range.mpr hi, hnew⟩
  · rw [Finset.mem_filter, hscanned, bit_setbit, decide_eq_true rfl]
    simp

/-- A round of a pass scans an inode, or there is nothing to do. -/
theorem scanNext_gets {i : Nat} {s : Pass} : Gets (scanNext i s) d (fun s' =>
    s' = s ∧ (bit s.r.inodeAlloc i = true → bit s.r.scanned i = true) ∨
      s'.progress = true ∧ bit s.r.scanned i = false ∧ bit s.r.inodeAlloc i = true ∧
        ScannedInode d { s.r with scanned := setbit s.r.scanned i } (i + 1) s'.r) := by
  rw [scanNext]
  split
  · rename_i hskip
    exact .pure (.inl ⟨rfl, fun ha => hskip.resolve_left (by rw [ha]; exact Bool.false_ne_true.symm)⟩)
  · rename_i hscan
    rw [not_or, Bool.not_eq_true, Bool.not_eq_false] at hscan
    exact .bind scanInode_gets fun r' h => .pure (.inr ⟨rfl, hscan.2, hscan.1, h⟩)

/-- The variables in the middle of a pass that has started with `r`. -/
structure InPass (d : Disk) (r₀ r : Repair) (j : Nat) (s : Pass) : Prop where
  scanned : ∃ order, ScannedAll d r₀ order s.r
  quiet : s.progress = false → s.r = r ∧ ∀ i < j, bit r.inodeAlloc i = true → bit r.scanned i = true
  fewer : s.progress = true → unscanned s.r < unscanned r

theorem InPass.next {j : Nat} {s s' : Pass} (h : InPass d r₀ r j s) (hj : j < r₀.inodes)
    (h' : s' = s ∧ (bit s.r.inodeAlloc j = true → bit s.r.scanned j = true) ∨
      s'.progress = true ∧ bit s.r.scanned j = false ∧ bit s.r.inodeAlloc j = true ∧
        ScannedInode d { s.r with scanned := setbit s.r.scanned j } (j + 1) s'.r) :
    InPass d r₀ r (j + 1) s' := by
  obtain ⟨order, hall⟩ := h.scanned
  have hinodes : s.r.inodes = r₀.inodes := congrArg Geometry.inodes hall.walked.geometry
  rcases h' with ⟨rfl, hdone⟩ | ⟨hprog, hnew, halloc, hscan⟩
  · refine ⟨⟨order, hall⟩, fun hq => ?_, h.fewer⟩
    obtain ⟨hr, hbefore⟩ := h.quiet hq
    refine ⟨hr, fun i hi => ?_⟩
    rcases Nat.lt_succ_iff_lt_or_eq.mp hi with hi | rfl
    · exact hbefore i hi
    · exact hr ▸ hdone
  · refine ⟨⟨_, hall.next (hinodes ▸ hj) hnew halloc hscan⟩, fun hq => ?_, fun _ => ?_⟩
    · rw [hprog] at hq
      cases hq
    · have hlt : unscanned s'.r < unscanned s.r :=
        unscanned_lt (congrArg Geometry.inodes hscan.walked.geometry) (hinodes ▸ hj) hnew hscan.walked.scanned
      cases hp : s.progress with
      | false => exact (h.quiet hp).1 ▸ hlt
      | true => exact lt_trans hlt (h.fewer hp)

/-- The scan ends when all allocated inodes have been scanned. -/
theorem scanPasses_gets {n : Nat} (h : ∃ order, ScannedAll d r₀ order r) (hn : unscanned r < n) :
    Gets (scanPasses n r) d (fun r' => (∃ order, ScannedAll d r₀ order r') ∧
      ∀ i < r₀.inodes, bit r'.inodeAlloc i = true → bit r'.scanned i = true) := by
  induction n generalizing r with
  | zero => exact absurd hn (Nat.not_lt_zero _)
  | succ n ih =>
    have hinodes : r.inodes = r₀.inodes := by
      obtain ⟨order, hall⟩ := h
      exact congrArg Geometry.inodes hall.walked.geometry
    refine .bind (Gets.loop_zero (InPass d r₀ r) ⟨h, fun _ => ⟨rfl, by simp⟩, fun h => by cases h⟩
      fun j hj s hs => scanNext_gets.mono fun s' h' => hs.next (hinodes ▸ hj) h') fun s hs => ?_
    split
    · rename_i hprog
      exact ih hs.scanned (lt_of_lt_of_le (hs.fewer hprog) (by omega))
    · rename_i hprog
      obtain ⟨hr, hdone⟩ := hs.quiet (Bool.eq_false_of_not_eq_true hprog)
      refine .pure ⟨hs.scanned, fun i hi => ?_⟩
      rw [hr]
      exact hdone i (hinodes ▸ hi)

theorem scanAll_gets : Gets (scanAll r) d (fun r' => (∃ order, ScannedAll d r order r') ∧
    ∀ i < r.inodes, bit r'.inodeAlloc i = true → bit r'.scanned i = true) := by
  refine scanPasses_gets ⟨[], .nil d r⟩ (Nat.lt_succ_of_le ?_)
  refine (Finset.card_filter_le _ _).trans ?_
  rw [Finset.card_range]

end Lorica.Proof.Install
