import Lorica.Proof.Install.Bounds
import Lorica.Proof.Install.Grown

/-!
# The bounds of `ext2_grow`

`ext2_grow` takes numbers from the superblock and from the descriptor block with few checks, so that it stays
within bounds only for some of these, which `StaysInBounds` describes. That it does for them is
shown part by part (`growTo_notes`). That it does not for others is shown along a run in which the device
answers what leads to the access in question: where a program `Returns` a result with some
answers, what holds of all runs holds of the rest from there (`Try.Always.after`).
-/

namespace Lorica.Proof.Install

open Lorica.Impl.Install
open Try (always_bind always_throw)

variable {sb gdt : Buf} {target g : Nat}

/-! ## The plan in terms of the superblock -/

/-- A superblock that `ext2_grow` accepts, and a partition with room for more. -/
structure Grows (target : Nat) (sb : Buf) : Prop where
  supported : growSupported sb
  resizable : resizable sb
  single : (r32 sb 4 + r32 sb 32 - 1) % 2 ^ 32 / r32 sb 32 = 1
  more : r32 sb 4 < partitionBlocks sb target

theorem Grows.bpg_pos (h : Grows target sb) : 0 < r32 sb 32 := Nat.pos_of_ne_zero h.resizable.2.1

theorem Grows.blocks_le (h : Grows target sb) : r32 sb 4 ≤ r32 sb 32 := by
  have hgroups : (geometry sb).groups = 1 := h.single
  have hle : (geometry sb).blocks ≤ (geometry sb).groups * (geometry sb).bpg :=
    Install.blocks_le h.bpg_pos (hgroups ▸ Nat.one_pos)
  rwa [hgroups, Nat.one_mul] at hle

theorem groupTaken_le (sb : Buf) (g : Nat) : groupTaken sb g ≤ groupTaken sb 1 := by
  have hone : hasSparseSuper 1 = true := by decide
  unfold groupTaken groupPrefix
  split <;> omega

/-- What is planned: all groups, or all but the last, which is too small. -/
theorem plan_cases (sb : Buf) (blocks : Nat) : plan sb blocks = ⟨groupsFor sb blocks, blocks⟩ ∧
      (1 < groupsFor sb blocks →
        groupTaken sb (groupsFor sb blocks - 1) < blocks - (groupsFor sb blocks - 1) * r32 sb 32) ∨
    plan sb blocks = ⟨groupsFor sb blocks - 1, (groupsFor sb blocks - 1) * r32 sb 32⟩ ∧ 1 < groupsFor sb blocks ∧
        blocks - (groupsFor sb blocks - 1) * r32 sb 32 ≤ groupTaken sb (groupsFor sb blocks - 1) := by
  unfold plan
  dsimp only
  split
  · rename_i hdrop
    exact .inr ⟨rfl, hdrop⟩
  · exact .inl ⟨rfl, fun hn => by omega⟩

section

variable {blocks : Nat} (hpos : 0 < blocks) (hbpg : 0 < r32 sb 32)

include hpos hbpg

theorem plan_group0End : group0End sb (plan sb blocks) = min blocks (r32 sb 32) := by
  obtain ⟨hn, hlast, hfits⟩ : 0 < groupsFor sb blocks ∧ (groupsFor sb blocks - 1) * r32 sb 32 < blocks ∧
    blocks ≤ groupsFor sb blocks * r32 sb 32 := groupsFor_bounds hpos hbpg
  unfold group0End
  rcases plan_cases sb blocks with ⟨hp, -⟩ | ⟨hp, hmany, -⟩
  · rw [hp]
    dsimp only
    split
    · rename_i hone
      rw [hone] at hfits
      omega
    · have := Nat.le_mul_of_pos_left (r32 sb 32) (show 0 < groupsFor sb blocks - 1 by omega)
      omega
  · rw [hp]
    dsimp only
    have := Nat.le_mul_of_pos_left (r32 sb 32) (show 0 < groupsFor sb blocks - 1 by omega)
    split
    · rename_i hone
      rw [hone] at hlast ⊢
      omega
    · omega

/-- When the first new group is written. -/
theorem plan_second : 1 < (plan sb blocks).groups ∧ groupTaken sb 1 < groupValid sb (plan sb blocks) 1 ↔
    groupTaken sb 1 < min (blocks - r32 sb 32) (r32 sb 32) := by
  obtain ⟨hn, hlast, hfits⟩ : 0 < groupsFor sb blocks ∧ (groupsFor sb blocks - 1) * r32 sb 32 < blocks ∧
    blocks ≤ groupsFor sb blocks * r32 sb 32 := groupsFor_bounds hpos hbpg
  unfold groupValid
  rw [Nat.one_mul]
  rcases plan_cases sb blocks with ⟨hp, hkeep⟩ | ⟨hp, hmany, hdrop⟩
  · rw [hp]
    dsimp only
    refine ⟨fun h => h.2, fun h => ⟨?_, h⟩⟩
    by_contra hone
    rw [show groupsFor sb blocks = 1 by omega] at hfits
    omega
  · rw [hp]
    dsimp only
    by_cases htwo : groupsFor sb blocks = 2
    · rw [htwo] at hdrop ⊢
      rw [show 2 - 1 = 1 by decide] at *
      omega
    · have := Nat.mul_le_mul_right (r32 sb 32) (show 2 ≤ groupsFor sb blocks - 1 by omega)
      omega

/-- When all new groups are written. -/
theorem plan_fits : (∀ g, 1 ≤ g → g < (plan sb blocks).groups → groupTaken sb g < groupValid sb (plan sb blocks) g) ↔
    blocks ≤ 2 * r32 sb 32 ∨ groupTaken sb 1 < r32 sb 32 := by
  obtain ⟨hn, hlast, hfits⟩ : 0 < groupsFor sb blocks ∧ (groupsFor sb blocks - 1) * r32 sb 32 < blocks ∧
    blocks ≤ groupsFor sb blocks * r32 sb 32 := groupsFor_bounds hpos hbpg
  unfold groupValid
  constructor
  · intro hall
    by_cases hle : blocks ≤ 2 * r32 sb 32
    · exact .inl hle
    have hthree : 2 < groupsFor sb blocks := by
      by_contra hfew
      have := Nat.mul_le_mul_right (r32 sb 32) (show groupsFor sb blocks ≤ 2 by omega)
      omega
    have hgroups : 1 < (plan sb blocks).groups := by
      rcases plan_cases sb blocks with ⟨hp, -⟩ | ⟨hp, -⟩
      · rw [hp]
        dsimp only
        omega
      · rw [hp]
        dsimp only
        omega
    have hone := hall 1 le_rfl hgroups
    omega
  · intro hor g hg hlt
    have htaken := groupTaken_le sb g
    -- a group that is not the last of the partition has all its blocks
    have hfull : g < groupsFor sb blocks - 1 → g * r32 sb 32 + r32 sb 32 ≤ (groupsFor sb blocks - 1) * r32 sb 32 ∧
        groupTaken sb 1 < r32 sb 32 := by
      intro hbefore
      have hmul := Nat.mul_le_mul_right (r32 sb 32) (show g + 1 ≤ groupsFor sb blocks - 1 by omega)
      have htwo := Nat.mul_le_mul_right (r32 sb 32) (show 2 ≤ groupsFor sb blocks - 1 by omega)
      rw [Nat.succ_mul] at hmul
      exact ⟨hmul, hor.resolve_left (by omega)⟩
    rcases plan_cases sb blocks with ⟨hp, hkeep⟩ | ⟨hp, hmany, -⟩
    · rw [hp] at hlt ⊢
      dsimp only at hlt ⊢
      by_cases hlastg : g = groupsFor sb blocks - 1
      · have hsucc : groupsFor sb blocks * r32 sb 32 = g * r32 sb 32 + r32 sb 32 := by
          rw [← Nat.succ_mul, hlastg, Nat.succ_eq_add_one, Nat.sub_add_cancel hn]
        rw [← hlastg] at hkeep
        omega
      · omega
    · rw [hp] at hlt ⊢
      dsimp only at hlt ⊢
      omega

end

/-! ## Writes -/

/-- A write below the end of the partition, counted in blocks. -/
def WritesBelow (target : Nat) : Disk.Op → Prop
  | .read _ _ => True
  | .write off len _ => off + len ≤ target / spb * bs

/-- Whatever the device answers, the program writes below the end of the partition and what it notes holds;
its result is in `Q`. -/
abbrev GrowsInBounds {α : Type} (target : Nat) (p : Noted.Rep α) (Q : α → Prop) : Prop :=
  Try.Always (Prog.Noting (M := Disk.machine) (WritesBelow target)) p Q

variable {size sector count : Nat} {buf : Buf} {p : Plan}

theorem growRead_notes (hcount : 0 < count) (hsize : count * 512 ≤ size) :
    GrowsInBounds target (Noted.growRead size sector count) fun _ => True := by
  refine note_touch (by omega) (Try.always_dev_bind.mpr ⟨trivial, fun r => ?_⟩)
  cases r with
  | none => exact always_throw
  | some buf => trivial

theorem writeChecked_notes (hcount : 0 < count) (hsize : count * 512 ≤ size)
    (hb : sector * 512 + count * 512 ≤ target / spb * bs) :
    GrowsInBounds target (Noted.writeChecked size sector count buf) fun _ => True := by
  unfold Noted.writeChecked
  split
  · exact always_throw
  rename_i hchunk
  have hwrite : GrowsInBounds target (Noted.growWrite size sector count buf) fun _ => True := by
    refine note_touch (by omega) (Try.always_dev_bind.mpr ⟨hb, fun r => ?_⟩)
    cases r with
    | false => exact always_throw
    | true => trivial
  refine hwrite.bind fun _ _ => (growRead_notes hcount (Nat.le_of_not_lt hchunk)).bind fun check _ => ?_
  split
  · trivial
  · exact always_throw

/-- `b` blocks, in bytes. -/
theorem block_bytes (b : Nat) : b * spb * 512 = b * bs := by
  rw [Nat.mul_assoc]
  rfl

theorem growWriteBlock_notes {b : Nat} (hb : b < target / spb) :
    GrowsInBounds target (Noted.growWriteBlock b buf) fun _ => True := by
  refine writeChecked_notes (by decide) (by decide) ?_
  rw [block_bytes, show spb * 512 = bs from rfl, ← Nat.succ_mul]
  exact Nat.mul_le_mul_right bs hb

theorem zeroBlocks_notes {first : Nat} (hb : first + count ≤ target / spb) :
    GrowsInBounds target (Noted.zeroBlocks first count) fun _ => True := by
  refine Try.Always.loop (fun _ _ => True) trivial fun c _ hc _ _ => ?_
  have hzero : zeroChunk = 16 := rfl
  rw [hzero] at hc ⊢
  have hpos : 0 < min (count - c * 16) 16 := by omega
  refine writeChecked_notes (Nat.mul_pos hpos (by decide)) ?_ ?_
  · rw [block_bytes]
    exact (Nat.mul_le_mul_right bs (min_le_right _ _)).trans (by decide)
  · rw [block_bytes, block_bytes, ← Nat.add_mul]
    exact Nat.mul_le_mul_right bs (by omega)

theorem clearRange_notes {map : Buf} {first last : Nat} (hlast : last ≤ bs * 8) :
    GrowsInBounds target (Noted.bitmapClearRange map first last) fun _ => True := by
  refine Try.Always.loop (fun _ _ => True) trivial fun i _ hi m _ => ?_
  exact note_touch (by omega) trivial

/-! ## Within bounds -/

section

variable {p : Plan} (hr : resizable sb) (hp : Planned sb p) (htarget : p.targetBlocks ≤ target / spb)

include hr hp htarget

omit htarget in
theorem growGroup0_notes (hb : r32 gdt 0 < target / spb) (hfree : r16 gdt 12 + (group0End sb p - r32 sb 4) < 2 ^ 16) :
    GrowsInBounds target (Noted.growGroup0 sb p gdt) fun s => s.backupCount = 0 := by
  have hend : group0End sb p ≤ bs * 8 := hp.group0End_le.trans hr.2.2.1
  refine note_r32 (by decide) ?_
  split
  · exact always_throw
  refine (Try.always_adapt.mpr (growRead_notes (by decide) (by decide))).bind fun bitmap _ => ?_
  refine (clearRange_notes hend).bind fun map _ => ?_
  refine (Try.always_adapt.mpr (growWriteBlock_notes hb)).bind fun _ _ => note_r16 (by decide) ?_
  exact Try.Always.note hfree rfl

omit hr htarget in
/-- The blocks of a new group are in the file system. -/
theorem groupValid_le (hg : g < p.groups) : g * r32 sb 32 + groupValid sb p g ≤ p.targetBlocks := by
  have hle : g * r32 sb 32 ≤ (p.groups - 1) * r32 sb 32 := Nat.mul_le_mul_right _ (by omega)
  have hlast : (p.groups - 1) * r32 sb 32 < p.targetBlocks := hp.last
  unfold groupValid
  omega

omit htarget in
theorem start_word (hg : g < p.groups) : g * r32 sb 32 < 2 ^ 32 := by
  have hmax := hp.groups
  exact (mul_bound (by omega) hr.2.2.1).trans_lt (by decide)

variable {s : Grow}

theorem growGroup_notes (hg : g < p.groups) (hipg : groupTaken sb g < groupValid sb p g → r32 sb 40 ≤ bs * 8) :
    GrowsInBounds target (Noted.growGroup sb p g s) fun s' =>
      s'.backupCount ≤ s.backupCount + 1 ∧ groupTaken sb g < groupValid sb p g := by
  have hin := groupValid_le hp hg
  have hmax : p.groups ≤ 128 := hp.groups
  have hbpg : groupValid sb p g ≤ bs * 8 := (min_le_right _ _).trans hr.2.2.1
  have hbs : bs = 4096 := rfl
  have hdesc : descSize = 32 := rfl
  refine note_mul32 (start_word hr hp hg) ?_
  dsimp only
  split
  · exact always_throw
  have hfits : groupTaken sb g < groupValid sb p g := by omega
  have hmeta : groupTaken sb g = groupPrefix sb g + 2 + (geometry sb).inodeTableBlocks := rfl
  have hdescs : GrowsInBounds target (Noted.bgdSet s.gdt g (g * r32 sb 32 + groupPrefix sb g)
      (g * r32 sb 32 + groupPrefix sb g + 1) (g * r32 sb 32 + groupPrefix sb g + 2) (groupValid sb p
        g - groupTaken sb g)
      (r32 sb 40)) fun _ => True := by
    refine note_touch (by rw [hdesc]; omega) (Try.Always.note ?_ (Try.Always.note ?_ trivial))
    · show groupValid sb p g - groupTaken sb g < 2 ^ 16
      omega
    · show r32 sb 40 < 2 ^ 16
      omega
  refine hdescs.bind fun gdt _ => (clearRange_notes hbpg).bind fun map _ => ?_
  refine (Try.always_adapt.mpr (growWriteBlock_notes (by omega))).bind fun _ _ => ?_
  refine (clearRange_notes (hipg hfits)).bind fun map _ => ?_
  refine (Try.always_adapt.mpr (growWriteBlock_notes (by omega))).bind fun _ _ => ?_
  refine (Try.always_adapt.mpr (zeroBlocks_notes (by omega))).bind fun _ _ => ⟨?_, hfits⟩
  dsimp only
  split <;> omega

theorem growGroups_notes (hs : s.backupCount = 0)
    (hipg : 1 < p.groups → groupTaken sb 1 < groupValid sb p 1 → r32 sb 40 ≤ bs * 8) :
    GrowsInBounds target (Try.loop (Noted.growGroup sb p) (p.groups - 1) 1 s) fun s' =>
      s'.backupCount ≤ 127 ∧ ∀ g, 1 ≤ g → g < p.groups → groupTaken sb g < groupValid sb p g := by
  have hmax : p.groups ≤ 128 := hp.groups
  have hfirst : s.backupCount < 1 ∧ ∀ g, 1 ≤ g → g < 1 → groupTaken sb g < groupValid sb p g :=
    ⟨by omega, fun g hg hlt => by omega⟩
  refine (Try.Always.loop (fun j (s : Grow) => s.backupCount < j ∧
    ∀ g, 1 ≤ g → g < j → groupTaken sb g < groupValid sb p g) hfirst fun j hj hj' s hs => ?_).mono
      fun s' h => ⟨by omega, ?_⟩
  · -- no group is reached unless the first new one has room
    have hroom : groupTaken sb j < groupValid sb p j → r32 sb 40 ≤ bs * 8 := by
      intro hfits
      by_cases hone : j = 1
      · exact hipg (by omega) (hone ▸ hfits)
      · exact hipg (by omega) (hs.2 1 le_rfl (by omega))
    refine (growGroup_notes hr hp htarget (by omega) hroom).mono fun s' h' => ⟨by omega, fun g hg hlt => ?_⟩
    rcases Nat.lt_succ_iff_lt_or_eq.mp hlt with hlt | rfl
    · exact hs.2 g hg hlt
    · exact h'.2
  · exact fun g hg hlt => h.2 g hg (by omega)

omit hp htarget in
/-- Inode 7 is not cut by the end of a block: the size of an inode is a power of 2. -/
theorem resizeOff_le : resizeOff sb + 128 ≤ bs := by
  obtain ⟨-, -, -, -, -, hge, hle, hpow, -⟩ := hr
  obtain ⟨k, hk⟩ := (Nat.and_sub_one_eq_zero_iff_isPowerOfTwo (by omega)).mp hpow
  unfold resizeOff
  rw [hk] at hge hle ⊢
  have hhi : k < 13 := (Nat.pow_lt_pow_iff_right (by decide : 1 < 2)).mp (lt_of_le_of_lt hle (by decide))
  interval_cases k <;> decide

omit htarget in
theorem backupRefs_notes {r : Nat} :
    GrowsInBounds target (Try.loop (Noted.backupRef sb r) (p.groups - 1) 1 (fun _ => 0, 0)) fun _ => True := by
  have hmax : p.groups ≤ 128 := hp.groups
  have hbs : bs = 4096 := rfl
  have hfirst : ((fun _ => 0, 0) : Buf × Nat).2 < 1 := Nat.one_pos
  refine (Try.Always.loop (fun j (refs : Buf × Nat) => refs.2 < j) hfirst fun j hj hj'
    refs hrefs => ?_).mono fun _ _ => trivial
  unfold Noted.backupRef
  split
  · refine note_mul32 (start_word hr hp (by omega)) (note_touch (by omega) ?_)
    exact Nat.succ_lt_succ hrefs
  · exact Nat.lt_succ_of_lt hrefs

omit htarget in
theorem growReserved_notes (hall : 2 ^ 32 ≤ target / spb) {dind : Buf} {r : Nat} (hres : r < reservedGdt sb) :
    GrowsInBounds target (Noted.growReserved sb p dind r ()) fun _ => True := by
  have hle : reservedGdt sb ≤ 64 := hr.2.2.2.2.2.2.2.2.1
  have hbs : bs = 4096 := rfl
  refine note_r32 (by omega) ?_
  split
  · exact always_throw
  refine (Try.always_adapt.mpr (growRead_notes (by decide) (by decide))).bind fun _ _ => ?_
  refine (backupRefs_notes hr hp).bind fun refs _ => Try.always_adapt.mpr (growWriteBlock_notes ?_)
  exact (r32_lt _ _).trans_le hall

omit htarget in
theorem growResizeInode_notes (hres : reservedGdt sb = 0 ∨ 2 ^ 32 ≤ target / spb) (hs : s.backupCount ≤ 127) :
    GrowsInBounds target (Noted.growResizeInode sb p s) fun _ => True := by
  unfold Noted.growResizeInode
  split
  · trivial
  rename_i hne
  have hall := hres.resolve_left hne
  have hle : reservedGdt sb ≤ 64 := hr.2.2.2.2.2.2.2.2.1
  have hsize : r16 sb 88 ≤ 4096 := hr.2.2.2.2.2.2.1
  have hoff := resizeOff_le hr
  refine note_touch (by decide) (Try.Always.note ?_ ?_)
  · show 6 * r16 sb 88 < 2 ^ 32
    omega
  refine (Try.always_adapt.mpr (growRead_notes (by decide) (by decide))).bind fun block _ => note_r32 (by omega) ?_
  split
  · exact always_throw
  refine (Try.always_adapt.mpr (growRead_notes (by decide) (by decide))).bind fun refs _ => ?_
  have hloop : GrowsInBounds target (Try.loop (Noted.growReserved sb p refs) (reservedGdt sb) 0 ()) fun _ => True :=
    Try.Always.loop (fun _ _ => True) trivial fun r _ hlt _ _ => growReserved_notes hr hp hall (by omega)
  refine hloop.bind fun _ _ => note_touch (by omega) (Try.Always.note ?_ ?_)
  · have hmul : s.backupCount * reservedGdt sb * spb ≤ 127 * 64 * 8 :=
      Nat.mul_le_mul_right 8 (Nat.mul_le_mul hs hle)
    exact lt_of_le_of_lt hmul (by decide)
  · exact Try.always_adapt.mpr (growWriteBlock_notes ((Nat.mod_lt _ (by decide)).trans_le hall))

theorem growBackup_notes {sb1 gdt : Buf} (hg : g < p.groups) (hfits : groupTaken sb g < groupValid sb p g) :
    GrowsInBounds target (Noted.growBackup sb sb1 gdt g ()) fun _ => True := by
  unfold Noted.growBackup
  split
  swap
  · trivial
  rename_i hsparse
  have hin := groupValid_le hp hg
  have hmax : p.groups ≤ 128 := hp.groups
  have htaken : groupTaken sb g = 2 + reservedGdt sb + 2 + (geometry sb).inodeTableBlocks := by
    rw [groupTaken, groupPrefix, if_pos hsparse]
  refine note_mul32 (start_word hr hp hg) (note_touch (by decide) (Try.Always.note ?_ ?_))
  · show g < 2 ^ 16
    omega
  refine (Try.always_adapt.mpr (growWriteBlock_notes (by omega))).bind fun _ _ => ?_
  refine (Try.always_adapt.mpr (growWriteBlock_notes (by omega))).bind fun _ _ => ?_
  exact Try.Always.loop (fun _ _ => True) trivial fun r _ hlt _ _ => Try.always_adapt.mpr (zeroBlocks_notes (by omega))

theorem growTo_notes (htwo : 1 < target / spb) (hb : r32 gdt 0 < target / spb)
    (hfree : r16 gdt 12 + (group0End sb p - r32 sb 4) < 2 ^ 16)
    (hipg : 1 < p.groups → groupTaken sb 1 < groupValid sb p 1 → r32 sb 40 ≤ bs * 8)
    (hres : (∀ g, 1 ≤ g → g < p.groups → groupTaken sb g < groupValid sb p g) →
      reservedGdt sb = 0 ∨ 2 ^ 32 ≤ target / spb) : GrowsInBounds target (Noted.growTo sb p gdt) fun _ => True := by
  have hmax : p.groups ≤ 128 := hp.groups
  have hipgw : r32 sb 40 ≤ 65535 := hr.2.2.2.2.1
  have hinodes : p.groups * r32 sb 40 ≤ 128 * 65535 := Nat.mul_le_mul hmax hipgw
  have hinodes' : (p.groups - 1) * r32 sb 40 ≤ p.groups * r32 sb 40 := Nat.mul_le_mul_right _ (Nat.sub_le _ _)
  refine (growGroup0_notes hr hp hb hfree).bind fun s0 hs0 => ?_
  refine (growGroups_notes hr hp htarget hs0 hipg).bind fun s hs => ?_
  refine always_bind.mpr (Try.Always.note ?_ (Try.Always.note ?_ (note_touch (by decide) ?_)))
  · show p.groups * r32 sb 40 < 2 ^ 32
    omega
  · show (p.groups - 1) * r32 sb 40 < 2 ^ 32
    omega
  refine (growResizeInode_notes hr hp (hres hs.2) hs.1).bind fun _ _ => ?_
  have hloop : GrowsInBounds target
      (Try.loop (Noted.growBackup sb (growSuper sb p s.freeBlocks) s.gdt) (p.groups - 1) 1 ())
      fun _ => True :=
    Try.Always.loop (fun _ _ => True) trivial fun g hg hlt _ _ =>
      growBackup_notes hr hp htarget (by omega) (hs.2 g hg (by omega))
  refine hloop.bind fun _ _ => ?_
  refine (Try.always_adapt.mpr (growWriteBlock_notes htwo)).bind fun _ _ => ?_
  refine (Try.always_adapt.mpr (writeChecked_notes (by decide) (by decide) ?_)).bind fun _ _ => trivial
  exact (show 2 * 512 + 2 * 512 ≤ 1 * bs by decide).trans (Nat.mul_le_mul_right bs (by omega))

end

theorem growPlan_notes (target : Nat) (sb : Buf) : GrowsInBounds target (Noted.growPlan target sb) fun res =>
    ∀ p, res = some p → Grows target sb ∧ p = plan sb (partitionBlocks sb target) := by
  refine note_touch (by decide) ?_
  split
  · exact always_throw
  rename_i hsup
  split
  · exact always_throw
  rename_i hres
  split
  · exact always_throw
  rename_i hsingle
  have hr : resizable sb := not_not.mp hres
  have hbpg : r32 sb 32 ≤ 32768 := hr.2.2.1
  have hipg : r32 sb 40 ≤ 65535 := hr.2.2.2.2.1
  have hsize : r16 sb 88 ≤ 4096 := hr.2.2.2.2.2.2.1
  have hmul : r32 sb 40 * r16 sb 88 ≤ 65535 * 4096 := Nat.mul_le_mul hipg hsize
  have hmax : maxGroups = 128 := rfl
  have hdesc : descSize = 32 := rfl
  refine Try.Always.note ?_ ?_
  · show maxGroups * r32 sb 32 < 2 ^ 64
    rw [hmax]
    omega
  split
  · exact fun p hp => absurd hp.symm (Option.some_ne_none p)
  rename_i hmore
  split
  · exact always_throw
  rename_i hgroups
  have hblocks := mul_bound (Nat.le_of_not_lt hgroups) hr.2.2.1
  refine Try.Always.note ?_ ?_
  · show groupsFor sb (partitionBlocks sb target) * descSize < 2 ^ 32
    rw [hdesc]
    omega
  split
  · exact always_throw
  refine Try.Always.note ?_ (Try.Always.note ?_ ?_)
  · show r32 sb 40 * r16 sb 88 < 2 ^ 32
    omega
  · show groupsFor sb (partitionBlocks sb target) * r32 sb 32 < 2 ^ 32
    omega
  intro p hp
  exact ⟨⟨not_not.mp hsup, hr, not_not.mp hsingle, Nat.lt_of_not_le hmore⟩, (Option.some.inj hp).symm⟩

/-! ## The condition -/

/-- What the superblock and the descriptor block must be for `ext2_grow` to stay within bounds: the block bitmap
of group 0 is in the partition, its count of free blocks does not get too large, the inode bitmap of a new
group fits its block if there is one, and if all groups are written, no reserved blocks are looked
up (or there are so many blocks that each number of 32 bits is one of them). -/
def StaysInBounds (target : Nat) (sb gdt : Buf) : Prop :=
  r32 gdt 0 < target / spb ∧
  r16 gdt 12 + (min (partitionBlocks sb target) (r32 sb 32) - r32 sb 4) < 2 ^ 16 ∧
  (groupTaken sb 1 < min (partitionBlocks sb target - r32 sb 32) (r32 sb 32) → r32 sb 40 ≤ bs * 8) ∧
  (partitionBlocks sb target ≤ 2 * r32 sb 32 ∨ groupTaken sb 1 < r32 sb 32 →
    reservedGdt sb = 0 ∨ 2 ^ 32 ≤ target / spb)

theorem growWith_notes (h : Grows target sb → r32 gdt 0 ≠ 0 → StaysInBounds target sb gdt) :
    GrowsInBounds target (Noted.growWith target sb gdt) fun _ => True := by
  refine (growPlan_notes target sb).bind fun res hres => ?_
  cases res with
  | none => trivial
  | some p =>
    obtain ⟨hgrows, rfl⟩ := hres p rfl
    have hmore := hgrows.more
    have hpos : 0 < partitionBlocks sb target := by omega
    obtain ⟨hp, htarget, -⟩ : Planned sb (plan sb (partitionBlocks sb target)) ∧ _ :=
      plan_planned hgrows.bpg_pos hgrows.blocks_le hmore
    have htwo : 1 < target / spb := by
      have hold : r32 sb 4 ≠ 0 := hgrows.resizable.1
      have hle := (partitionBlocks_le sb target).1
      omega
    show GrowsInBounds target (Noted.growTo sb (plan sb (partitionBlocks sb target)) gdt) fun _ => True
    by_cases hzero : r32 gdt 0 = 0
    · -- there is no bitmap, and nothing is done
      have hfail : GrowsInBounds target
          (Noted.growGroup0 sb (plan sb (partitionBlocks sb target)) gdt) fun _ => False := by
        refine note_r32 (by decide) ?_
        rw [if_pos hzero]
        exact always_throw
      exact hfail.bind fun _ hs => hs.elim
    · obtain ⟨hb, hfree, hipg, hres⟩ := h hgrows hzero
      rw [← plan_group0End hpos hgrows.bpg_pos] at hfree
      exact growTo_notes hgrows.resizable hp htarget htwo hb hfree
        (fun hlt hfits => hipg ((plan_second hpos hgrows.bpg_pos).mp ⟨hlt, hfits⟩))
        fun hall => hres ((plan_fits hpos hgrows.bpg_pos).mp hall)

/-! ## Out of bounds -/

theorem growRead_returns (size sector count : Nat) (buf : Buf) : Try.Returns (Noted.growRead size sector count) buf :=
  (Try.Returns.note _).bind ((Try.Returns.dev (M := Disk.machine) (.read _ _) (some buf)).bind (Try.Returns.pure buf))

theorem writeChecked_returns (buf : Buf) (h : count * 512 ≤ Noted.chunkBytes) :
    Try.Returns (Noted.writeChecked size sector count buf) () := by
  have hsame : sameBytes (count * 512) buf buf = true := decide_eq_true fun _ _ => rfl
  unfold Noted.writeChecked
  rw [if_neg (Nat.not_lt_of_le h)]
  refine ((Try.Returns.note _).bind
    ((Try.Returns.dev (M := Disk.machine) (.write _ _ buf) true).bind (Try.Returns.pure ()))).bind ?_
  refine (growRead_returns _ _ _ buf).bind ?_
  rw [if_pos hsame]
  exact Try.Returns.pure ()

theorem growWriteBlock_returns (b : Nat) (buf : Buf) : Try.Returns (Noted.growWriteBlock b buf) () :=
  writeChecked_returns buf (by decide)

theorem clearRange_returns (map : Buf) (first last : Nat) :
    ∃ m, Try.Returns (Noted.bitmapClearRange map first last) m := by
  obtain ⟨m, hm, -⟩ := Try.Returns.loop (f := Noted.clearbit) (n := last - first) (i := first)
    (x := map) (fun _ _ => True)
    trivial fun j _ _ m _ => ⟨_, Try.Returns.noted _ _, trivial⟩
  exact ⟨m, hm⟩

theorem lt_of_growWriteBlock {b : Nat} {Q : Unit → Prop}
    (h : GrowsInBounds target (Noted.growWriteBlock b buf) Q) : b < target / spb := by
  unfold Noted.growWriteBlock Noted.writeChecked at h
  have hdev := (always_bind.mp h).after (Try.Returns.note _)
  have hle : b * spb * 512 + spb * 512 ≤ target / spb * bs := (Try.always_dev_bind.mp hdev).1
  rw [block_bytes, show spb * 512 = bs from rfl, ← Nat.succ_mul] at hle
  exact Nat.le_of_mul_le_mul_right hle (by decide)

theorem le_of_clearRange {map : Buf} {last : Nat} {Q : Buf → Prop}
    (h : GrowsInBounds target (Noted.bitmapClearRange map 0 last) Q) : last ≤ bs * 8 := by
  have hall : ∀ n i m, GrowsInBounds target (Try.loop Noted.clearbit n i m) Q → ∀ j, i ≤ j →
      j < i + n → j / 8 < bs := by
    intro n
    induction n with
    | zero => exact fun i m _ j hj hlt => by omega
    | succ n ih =>
      intro i m hloop j hj hlt
      have hbit : i / 8 + 1 - 1 < bs := (Try.always_note_bind.mp (always_bind.mp hloop)).1
      by_cases heq : j = i
      · rw [heq]
        exact hbit
      · exact ih (i + 1) _ (hloop.after (Try.Returns.noted _ _)) j (by omega) (by omega)
  by_contra hgt
  have := hall last 0 map h (bs * 8) (Nat.zero_le _) (by omega)
  omega

theorem growPlan_returns (h : Grows target sb) :
    Try.Returns (Noted.growPlan target sb) (some (plan sb (partitionBlocks sb target))) := by
  have hmore := h.more
  have hgroups : groupsFor sb (partitionBlocks sb target) ≤ maxGroups :=
    groupsFor_le (by omega) h.bpg_pos
  have hdesc : groupsFor sb (partitionBlocks sb target) * descSize ≤ bs := Nat.mul_le_mul_right descSize hgroups
  refine (Try.Returns.note _).bind ?_
  rw [if_neg (not_not.mpr h.supported), if_neg (not_not.mpr h.resizable), if_neg (not_not.mpr h.single)]
  refine (Try.Returns.note _).bind ?_
  rw [if_neg (Nat.not_le_of_lt hmore), if_neg (Nat.not_lt_of_le hgroups)]
  refine (Try.Returns.note _).bind ?_
  rw [if_neg (Nat.not_lt_of_le hdesc)]
  exact (Try.Returns.note _).bind (Try.Returns.noted _ _)

theorem growGroup0_returns (hb : r32 gdt 0 ≠ 0) :
    Try.Returns (Noted.growGroup0 sb p gdt) ⟨w16 gdt 12 (r16 gdt 12 + (group0End sb p - r32 sb 4)),
      r32 sb 12 + (group0End sb p - r32 sb 4), 0⟩ := by
  obtain ⟨m, hm⟩ := clearRange_returns ones (r32 sb 4) (group0End sb p)
  refine (Try.Returns.noted _ _).bind ?_
  rw [if_neg hb]
  refine (growRead_returns _ _ _ ones).adapt.bind (hm.bind ((growWriteBlock_returns _ m).adapt.bind ?_))
  exact (Try.Returns.noted _ _).bind (Try.Returns.noted _ _)

theorem zeroBlocks_returns (first count : Nat) : Try.Returns (Noted.zeroBlocks first count) () := by
  have hround : ∀ c, Try.Returns (Noted.writeChecked Noted.chunkBytes ((first + c * zeroChunk) * spb)
      (min (count - c * zeroChunk) zeroChunk * spb) fun _ => 0) () := by
    intro c
    refine writeChecked_returns _ ?_
    rw [block_bytes]
    exact (Nat.mul_le_mul_right bs (min_le_right _ _)).trans (by decide)
  obtain ⟨u, hu, -⟩ := Try.Returns.loop (f := fun c (_ : Unit) => Noted.writeChecked Noted.chunkBytes
    ((first + c * zeroChunk) * spb) (min (count - c * zeroChunk) zeroChunk * spb) fun _ => 0)
    (n := (count + zeroChunk - 1) / zeroChunk) (i := 0) (x := ()) (fun _ _ => True) trivial
    fun c _ _ _ _ => ⟨(), hround c, trivial⟩
  exact hu

theorem bgdSet_returns (gdt : Buf) (g bb ib it fb fi : Nat) :
    Try.Returns (Noted.bgdSet gdt g bb ib it fb fi) (bgdSet gdt g bb ib it fb fi) :=
  (Try.Returns.note _).bind ((Try.Returns.note _).bind (Try.Returns.noted _ _))

theorem growGroup_returns {s : Grow} (hfits : groupTaken sb g < groupValid sb p g) :
    Try.Returns (Noted.growGroup sb p g s) (addGroup sb p g s) := by
  obtain ⟨m, hm⟩ := clearRange_returns ones (groupTaken sb g) (groupValid sb p g)
  obtain ⟨m', hm'⟩ := clearRange_returns ones 0 (r32 sb 40)
  refine (Try.Returns.noted _ _).bind ?_
  rw [if_neg (Nat.not_le_of_lt hfits)]
  refine (bgdSet_returns ..).bind
    (hm.bind ((growWriteBlock_returns _ m).adapt.bind (hm'.bind ((growWriteBlock_returns _ m').adapt.bind ?_))))
  exact (zeroBlocks_returns _ _).adapt.bind (Try.Returns.pure _)

theorem growGroups_returns {s : Grow} (hall : ∀ g, 1 ≤ g → g < p.groups → groupTaken sb g < groupValid sb p g) :
    ∃ s', Try.Returns (Try.loop (Noted.growGroup sb p) (p.groups - 1) 1 s) s' := by
  obtain ⟨s', hs', -⟩ := Try.Returns.loop (f := Noted.growGroup sb p) (n := p.groups - 1) (i := 1)
    (x := s) (fun _ _ => True)
    trivial fun g hg hlt s _ => ⟨_, growGroup_returns (hall g hg (by omega)), trivial⟩
  exact ⟨s', hs'⟩

theorem backupRefs_returns (sb : Buf) (p : Plan) (r : Nat) :
    ∃ refs, Try.Returns (Try.loop (Noted.backupRef sb r) (p.groups - 1) 1 (fun _ => 0, 0)) refs := by
  obtain ⟨refs, hrefs, -⟩ := Try.Returns.loop (f := Noted.backupRef sb r) (n := p.groups - 1) (i := 1)
    (x := (fun _ => 0, 0)) (fun _ _ => True) trivial fun g _ _ refs _ => by
      unfold Noted.backupRef
      split
      · exact ⟨_, (Try.Returns.noted _ _).bind (Try.Returns.noted _ _),
          trivial⟩
      · exact ⟨refs, Try.Returns.pure refs, trivial⟩
  exact ⟨refs, hrefs⟩

theorem r32_ones (o : Nat) : r32 ones o = 2 ^ 32 - 1 := by
  have hr16 : ∀ o, r16 ones o = 65535 := by
    intro o
    show (0xff : UInt8).toNat + 256 * (0xff : UInt8).toNat = 65535
    decide
  rw [r32, hr16, hr16]
  decide

section

variable {p : Plan} {Q : Grow → Prop}

theorem group0_in (hb : r32 gdt 0 ≠ 0) (h : GrowsInBounds target (Noted.growGroup0 sb p gdt) Q) :
    r32 gdt 0 < target / spb ∧ r16 gdt 12 + (group0End sb p - r32 sb 4) < 2 ^ 16 := by
  obtain ⟨m, hm⟩ := clearRange_returns ones (r32 sb 4) (group0End sb p)
  have h := h.after (Try.Returns.noted _ _)
  rw [if_neg hb] at h
  have h := (h.after (growRead_returns _ _ _ ones).adapt).after hm
  have hwrite := lt_of_growWriteBlock (Try.always_adapt.mp (always_bind.mp h))
  have h := (h.after (growWriteBlock_returns _ m).adapt).after (Try.Returns.noted _ _)
  exact ⟨hwrite, (Try.always_note_bind.mp h).1⟩

theorem inodeMap_in {s : Grow} (hfits : groupTaken sb g < groupValid sb p g)
    (h : GrowsInBounds target (Noted.growGroup sb p g s) Q) : r32 sb 40 ≤ bs * 8 := by
  obtain ⟨m, hm⟩ := clearRange_returns ones (groupTaken sb g) (groupValid sb p g)
  have h := h.after (Try.Returns.noted _ _)
  rw [if_neg (Nat.not_le_of_lt hfits)] at h
  have h := h.after (bgdSet_returns ..)
  have h := (h.after hm).after (growWriteBlock_returns _ m).adapt
  exact le_of_clearRange (always_bind.mp h)

/-- A reserved block can have any number. -/
theorem reserved_in {s : Grow} {R : Unit → Prop} (hres : reservedGdt sb ≠ 0)
    (h : GrowsInBounds target (Noted.growResizeInode sb p s) R) : 2 ^ 32 ≤ target / spb := by
  obtain ⟨n, hn⟩ := Nat.exists_eq_succ_of_ne_zero hres
  obtain ⟨refs, hrefs⟩ := backupRefs_returns sb p 0
  unfold Noted.growResizeInode at h
  rw [if_neg hres] at h
  have h := ((h.after (Try.Returns.note _)).after (Try.Returns.note _)).after (growRead_returns _ _ _ ones).adapt
  have h := h.after (Try.Returns.noted _ _)
  have h := h.after (growRead_returns _ _ _ ones).adapt
  rw [hn] at h
  have h := (always_bind.mp (always_bind.mp h)).after (Try.Returns.noted _ _)
  rw [r32_ones] at h
  have h := (h.after (growRead_returns _ _ _ ones).adapt).after hrefs
  have hlt := lt_of_growWriteBlock (Try.always_adapt.mp h)
  omega

end

theorem staysInBounds_of_notes (hgrows : Grows target sb) (hb : r32 gdt 0 ≠ 0)
    (h : GrowsInBounds target (Noted.growWith target sb gdt) fun _ => True) : StaysInBounds target sb gdt := by
  have hmore := hgrows.more
  have hpos : 0 < partitionBlocks sb target := by omega
  have h : GrowsInBounds target (Noted.growTo sb (plan sb (partitionBlocks sb target)) gdt) fun _ => True :=
    h.after (growPlan_returns hgrows)
  obtain ⟨hmap, hfree⟩ := group0_in hb (always_bind.mp h)
  rw [plan_group0End hpos hgrows.bpg_pos] at hfree
  have h := h.after (growGroup0_returns hb)
  refine ⟨hmap, hfree, fun hsecond => ?_, fun hfits => ?_⟩
  · obtain ⟨hlt, hroom⟩ := (plan_second hpos hgrows.bpg_pos).mpr hsecond
    obtain ⟨n, hn⟩ : ∃ n, (plan sb (partitionBlocks sb target)).groups - 1 = n + 1 :=
      Nat.exists_eq_succ_of_ne_zero (by omega)
    rw [hn] at h
    exact inodeMap_in hroom (always_bind.mp (always_bind.mp h))
  · have hall := (plan_fits hpos hgrows.bpg_pos).mpr hfits
    obtain ⟨s, hs⟩ := growGroups_returns hall
    by_cases hres : reservedGdt sb = 0
    · exact .inl hres
    · have h := (h.after hs).after ((Try.Returns.note _).bind ((Try.Returns.note _).bind (Try.Returns.noted _ _)))
      exact .inr (reserved_in hres (always_bind.mp h))

/-- The bounds that `ext2_grow` keeps, for every superblock, descriptor block and partition, whatever else the
device answers. -/
theorem grow_in_bounds_iff (target : Nat) (sb gdt : Buf) : Try.erase (Noted.ext2Grow target) = ext2Grow target ∧
    (GrowsInBounds target (Noted.growWith target sb gdt) (fun _ => True) ↔
      (Grows target sb → r32 gdt 0 ≠ 0 → StaysInBounds target sb gdt)) :=
  ⟨erase_ext2Grow target, fun h hgrows hb => staysInBounds_of_notes hgrows hb h, growWith_notes⟩

/-- A superblock with 65535 inodes in each group. -/
def manyInodes : Buf := fun i =>
  ([(4, 100), (24, 2), (33, 128), (40, 255), (41, 255), (56, 0x53), (57, 0xef), (88, 128), (92, 16),
    (100, 1)].lookup i).getD 0

/-- A descriptor block with the block bitmap of group 0 in block 3. -/
def mapInThree : Buf := fun i => if i = 0 then 3 else 0

/-- On a partition of 36000 blocks, bits beyond the block are cleared for the inode bitmap of group 1. -/
theorem grow_out_of_bounds : ¬ GrowsInBounds 288000 (Noted.growWith 288000 manyInodes mapInThree) fun _ => True := by
  intro h
  have hgrows : Grows 288000 manyInodes := ⟨by decide, by decide, by decide, by decide⟩
  have hipg := (staysInBounds_of_notes hgrows (by decide) h).2.2.1 (by decide)
  exact absurd hipg (by decide)

end Lorica.Proof.Install
