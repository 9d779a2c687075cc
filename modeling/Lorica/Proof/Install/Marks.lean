import Lorica.Impl.Install.Ext2Repair

/-!
# ext2_repair: marking

`Gets p d P` says of a part of the check that it reads only, and what it gets when it ends
well. `Walked r l r'`
says that in coming from `r` to `r'` the blocks `l` were marked, each for the first time,
and `under`, `reached` give the blocks that a pointer and an inode lead to on the disk:
`scan_inode` marks the blocks that its inode reaches (`scanInode_gets`), and
`mark_metadata` those of the groups' metadata (`markMetadata_gets`).
-/

namespace Lorica.Proof.Install

open Lorica.Impl.Install Disk List

/-! ## Bits -/

section

variable {m : Buf} {n k : Nat}

theorem bit_setbit : bit (setbit m n) k = (bit m k || decide (k = n)) := by
  rw [bit, bit, setbit]
  by_cases hb : k / 8 = n / 8
  · have hlt : 2 ^ (n % 8) < UInt8.size := Nat.pow_lt_pow_right (by decide) (Nat.mod_lt n (by decide) : n % 8 < 8)
    have hiff : (n % 8 = k % 8) = (k = n) := by
      refine propext ⟨fun h => ?_, fun h => by rw [h]⟩
      omega
    rw [if_pos hb, UInt8.toNat_or, Nat.testBit_or, UInt8.toNat_ofNat_of_lt' hlt, Nat.testBit_two_pow]
    simp only [hiff]
  · have hne : k ≠ n := fun h => hb (by rw [h])
    rw [if_neg hb, decide_eq_false hne, Bool.or_false]

@[simp] theorem bit_zero : bit (fun _ => 0) n = false := by
  exact Nat.zero_testBit _

theorem bit_congr {m' : Buf} (h : m (n / 8) = m' (n / 8)) : bit m n = bit m' n := by rw [bit, bit, h]

end

/-! ## Reading -/

section

variable {α β σ : Type} {d : Disk} {P : α → Prop} {R : β → Prop}

/-- The program reads only, and if it ends well its result is as `P` says. -/
def Gets (p : Rep α) (d : Disk) (P : α → Prop) : Prop :=
  Try.WP (Allows true) p d (fun a d' => d' = d ∧ P a) (fun _ d' => d' = d) fun o d' => o.isWrite = false ∧ d' = d

namespace Gets

theorem pure {a : α} (h : P a) : Gets (Pure.pure a) d P := Try.WP.pure ⟨rfl, h⟩

theorem throw (e : Option String) : Gets (MonadExcept.throw e) d P := Try.WP.throw rfl

theorem fail (s : String) : Gets (Impl.Install.fail s) d P := throw _

variable {p : Rep α}

theorem mono {P' : α → Prop} (h : Gets p d P) (hP : ∀ a, P a → P' a) : Gets p d P' :=
  Try.WP.mono h fun a _ ha => ⟨ha.1, hP a ha.2⟩

theorem and {P' : α → Prop} (h : Gets p d P) (h' : Gets p d P') : Gets p d fun a => P a ∧ P' a := by
  refine Lorica.WP.mono (Lorica.WP.and h h') (fun r d' hr => ?_) fun _ _ hc => hc.1
  cases r with
  | ok a => exact ⟨hr.1.1, hr.1.2, hr.2.2⟩
  | error e => exact hr.1

theorem bind {f : α → Rep β} (h : Gets p d P) (hf : ∀ a, P a → Gets (f a) d R) : Gets (p >>= f) d R := by
  refine Try.WP.bind h fun a d' ha => ?_
  obtain ⟨rfl, ha⟩ := ha
  exact hf a ha

theorem orFail (s : String) (h : Gets p d P) : Gets (Impl.Install.orFail s p) d P := Try.WP.adapt h

theorem loop {f : Nat → σ → Rep σ} {n i : Nat} {x : σ} (I : Nat → σ → Prop) (h : I i x)
    (hstep : ∀ j, i ≤ j → j < i + n → ∀ x, I j x → Gets (f j x) d (I (j + 1))) :
    Gets (Try.loop f n i x) d (I (i + n)) := by
  refine Try.WP.loop (M := machine) (I := fun j x d' => d' = d ∧ I j x) ⟨rfl, h⟩ fun j hj hj' x d' hI => ?_
  obtain ⟨rfl, hI⟩ := hI
  exact hstep j hj hj' x hI

theorem loop_zero {f : Nat → σ → Rep σ} {n : Nat} {x : σ} (I : Nat → σ → Prop) (h : I 0 x)
    (hstep : ∀ j < n, ∀ x, I j x → Gets (f j x) d (I (j + 1))) : Gets (Try.loop f n 0 x) d (I n) := by
  have := loop (n := n) I h fun j _ hj => hstep j (by omega)
  rwa [Nat.zero_add] at this

end Gets

/-- The contents of a block. -/
def blockAt (d : Disk) (b : Nat) : Buf := d.slice (b * spb * 512) (spb * 512)

theorem rwRead_gets {sectors sector count : Nat} :
    Gets (rwRead sectors sector count) d (fun buf => buf = d.slice (sector * 512) (count * 512)) := by
  rw [rwRead]
  split
  · exact .fail _
  refine Try.WP.lift_bind (Q := fun r d' => d' = d ∧ (r = some (d.slice (sector * 512) (count * 512)) ∨ r = none)) ?_
    fun r d' h => ?_
  · exact Dev.WP.read ⟨rfl, rfl⟩ (fun _ => ⟨rfl, .inl rfl⟩) fun _ => ⟨rfl, .inr rfl⟩
  · obtain ⟨rfl, rfl | rfl⟩ := h
    · exact Gets.pure rfl
    · exact Gets.fail _

theorem readBlock_gets {r : Repair} {b : Nat} :
    Gets (readBlock r b) d (fun buf => b < r.blocks ∧ buf = blockAt d b) := by
  rw [readBlock]
  split
  · exact .fail _
  · exact rwRead_gets.mono fun _ h => ⟨by omega, h⟩

end

/-! ## Marks -/

/-- In coming from `refs` to `refs'`, the blocks `l` were marked, each for the first time. -/
structure Marked (blocks : Nat) (refs : Buf) (l : List Nat) (refs' : Buf) : Prop where
  lt : ∀ b ∈ l, b < blocks
  nodup : l.Nodup
  fresh : ∀ b ∈ l, bit refs b = false
  bits : ∀ b, bit refs' b = true ↔ bit refs b = true ∨ b ∈ l

namespace Marked

variable {blocks : Nat} {refs refs' refs'' : Buf} {l l' : List Nat}

theorem nil : Marked blocks refs [] refs :=
  ⟨forall_mem_nil _, nodup_nil, forall_mem_nil _, fun _ => by simp⟩

theorem append (h : Marked blocks refs l refs') (h' : Marked blocks refs' l' refs'') :
    Marked blocks refs (l ++ l') refs'' := by
  have hdis : ∀ b ∈ l', b ∉ l ∧ bit refs b = false := fun b hb => by
    have hfalse := h'.fresh b hb
    refine ⟨fun hl => ?_, ?_⟩
    · rw [(h.bits b).mpr (.inr hl)] at hfalse
      cases hfalse
    · rw [← Bool.not_eq_true] at hfalse ⊢
      exact fun ht => hfalse ((h.bits b).mpr (.inl ht))
  refine ⟨forall_mem_append.mpr ⟨h.lt, h'.lt⟩, ?_, ?_, fun b => ?_⟩
  · exact nodup_append.mpr ⟨h.nodup, h'.nodup, fun a ha b hb heq => (hdis b hb).1 (heq ▸ ha)⟩
  · exact forall_mem_append.mpr ⟨h.fresh, fun b hb => (hdis b hb).2⟩
  · rw [h'.bits, h.bits, mem_append, or_assoc]

end Marked

/-- The variables that a part of the check comes to, when it has marked the blocks `l`. What
it reads stays the same, and inodes are added only. -/
structure Walked (r : Repair) (l : List Nat) (r' : Repair) : Prop where
  geometry : r'.geo = r.geo
  sectors : r'.sectors = r.sectors
  sb : r'.sb = r.sb
  gdt : r'.gdt = r.gdt
  scanned : r'.scanned = r.scanned
  dirs : r'.dirsPerGroup = r.dirsPerGroup
  missingBlocks : r'.missingBlocks = r.missingBlocks
  mismatches : r'.counterMismatches = r.counterMismatches
  marked : Marked r.blocks r.blockRefs l r'.blockRefs
  alloc : ∀ i, bit r.inodeAlloc i = true → bit r'.inodeAlloc i = true
  missing : r.missingInodes ≤ r'.missingInodes
  same : r'.missingInodes = r.missingInodes → r'.inodeAlloc = r.inodeAlloc
  parsed : r.parsed ⊆ r'.parsed

namespace Walked

variable {r r' r'' : Repair} {l l' : List Nat}

theorem refl (r : Repair) : Walked r [] r :=
  ⟨rfl, rfl, rfl, rfl, rfl, rfl, rfl, rfl, .nil, fun _ h => h, le_refl _, fun _ => rfl, fun _ h => h⟩

theorem trans (h : Walked r l r') (h' : Walked r' l' r'') : Walked r (l ++ l') r'' where
  geometry := h'.geometry.trans h.geometry
  sectors := h'.sectors.trans h.sectors
  sb := h'.sb.trans h.sb
  gdt := h'.gdt.trans h.gdt
  scanned := h'.scanned.trans h.scanned
  dirs := h'.dirs.trans h.dirs
  missingBlocks := h'.missingBlocks.trans h.missingBlocks
  mismatches := h'.mismatches.trans h.mismatches
  marked := h.marked.append (h.geometry ▸ h'.marked)
  alloc i hi := h'.alloc i (h.alloc i hi)
  missing := le_trans h.missing h'.missing
  same heq := by
    have h1 := h.missing
    have h2 := h'.missing
    exact (h'.same (by omega)).trans (h.same (by omega))
  parsed := List.Subset.trans h.parsed h'.parsed

end Walked

/-- The blocks `l` were marked, and nothing else was changed. -/
structure OnlyMarked (r : Repair) (l : List Nat) (r' : Repair) : Prop where
  eq : r' = { r with blockRefs := r'.blockRefs }
  marked : Marked r.blocks r.blockRefs l r'.blockRefs

namespace OnlyMarked

variable {r r' r'' : Repair} {l l' : List Nat}

theorem refl (r : Repair) : OnlyMarked r [] r := ⟨rfl, .nil⟩

theorem geometry (h : OnlyMarked r l r') : r'.geo = r.geo := by rw [h.eq]

theorem gdt (h : OnlyMarked r l r') : r'.gdt = r.gdt := by rw [h.eq]

theorem trans (h : OnlyMarked r l r') (h' : OnlyMarked r' l' r'') : OnlyMarked r (l ++ l') r'' := by
  refine ⟨h'.eq.trans ?_, h.marked.append (h.geometry ▸ h'.marked)⟩
  rw [h.eq]

theorem walked (h : OnlyMarked r l r') : Walked r l r' := by
  obtain ⟨heq, hm⟩ := h
  rw [heq]
  exact ⟨rfl, rfl, rfl, rfl, rfl, rfl, rfl, rfl, hm, fun _ h => h, le_refl _, fun _ => rfl, fun _ h => h⟩

end OnlyMarked

variable {d : Disk} {r : Repair}

theorem markBlock_gets {b : Nat} : Gets (markBlock b r) d (OnlyMarked r [b]) := by
  rw [markBlock]
  split
  · exact .fail _
  split
  · exact .fail _
  rename_i hlt hfresh
  refine .pure ⟨rfl, ?_, ?_, ?_, fun b' => ?_⟩
  · exact forall_mem_singleton.mpr (by omega)
  · exact nodup_singleton b
  · exact forall_mem_singleton.mpr (Bool.eq_false_of_not_eq_true hfresh)
  · rw [bit_setbit, Bool.or_eq_true, decide_eq_true_iff, mem_singleton]

theorem markRange_gets {n b : Nat} : Gets (Try.loop markBlock n b r) d (OnlyMarked r (range' b n)) := by
  have h : Gets (Try.loop markBlock n b r) d (OnlyMarked r (range' b (b + n - b))) := by
    refine Gets.loop (fun j r' => OnlyMarked r (range' b (j - b)) r') ?_ fun j hj _ r' h => ?_
    · rw [Nat.sub_self]
      exact .refl r
    · refine markBlock_gets.mono fun r'' h' => ?_
      have := h.trans h'
      rw [Nat.sub_add_comm hj, range'_1_concat, Nat.add_sub_cancel' hj]
      exact this
  rwa [Nat.add_sub_cancel_left] at h

/-! ## Metadata -/

/-- The blocks of a group that hold no data: those before its bitmaps and inode table, and
these. -/
def groupMeta (geo : Geometry) (gdt : Buf) (g : Nat) : List Nat :=
  range' (groupStart geo g) (prefixEnd gdt g - groupStart geo g) ++ [blockBitmap gdt g] ++ [inodeBitmap gdt g] ++
    range' (inodeTable gdt g) geo.inodeTableBlocks

def metadata (geo : Geometry) (gdt : Buf) : List Nat := (range geo.groups).flatMap (groupMeta geo gdt)

theorem markGroup_gets {g : Nat} : Gets (markGroup g r) d (OnlyMarked r (groupMeta r.geo r.gdt g)) := by
  rw [markGroup]
  split
  · exact .fail _
  refine .bind markRange_gets fun r1 h1 => .bind markBlock_gets fun r2 h2 => .bind markBlock_gets fun r3 h3 => ?_
  have h := (h1.trans h2).trans h3
  refine markRange_gets.mono fun r4 h4 => ?_
  rw [h.geometry] at h4
  exact h.trans h4

/-- The bitmaps and the inode table of a group lie in it. -/
def Placed (geo : Geometry) (gdt : Buf) (g : Nat) : Prop :=
  groupStart geo g ≤ blockBitmap gdt g ∧ blockBitmap gdt g < groupEnd geo g ∧
    groupStart geo g ≤ inodeBitmap gdt g ∧ inodeBitmap gdt g < groupEnd geo g ∧
    groupStart geo g ≤ inodeTable gdt g ∧ inodeTable gdt g + geo.inodeTableBlocks ≤ groupEnd geo g

theorem markGroup_placed {g : Nat} : Gets (markGroup g r) d fun _ => Placed r.geo r.gdt g := by
  rw [markGroup]
  split
  · exact .fail _
  have hplaced : Placed r.geo r.gdt g := by
    rw [Placed]
    omega
  refine .bind markRange_gets fun r1 _ => .bind markBlock_gets fun r2 _ => .bind markBlock_gets fun r3 _ => ?_
  exact markRange_gets.mono fun _ _ => hplaced

theorem markMetadata_placed : Gets (markMetadata r) d fun _ => ∀ g < r.groups, Placed r.geo r.gdt g := by
  refine (Gets.loop_zero (fun j r' => (r'.geo = r.geo ∧ r'.gdt = r.gdt) ∧
    ∀ g < j, Placed r.geo r.gdt g) ⟨⟨rfl, rfl⟩, by simp⟩ fun j _ r' h => ?_).mono fun _ h => h.2
  obtain ⟨⟨hgeo, hgdt⟩, hbefore⟩ := h
  refine (markGroup_gets.and markGroup_placed).mono fun r'' h' => ⟨⟨?_, ?_⟩, fun g hg => ?_⟩
  · exact h'.1.geometry.trans hgeo
  · exact h'.1.gdt.trans hgdt
  · rcases Nat.lt_succ_iff_lt_or_eq.mp hg with hg | rfl
    · exact hbefore g hg
    · rw [← hgeo, ← hgdt]
      exact h'.2

theorem markMetadata_gets : Gets (markMetadata r) d (OnlyMarked r (metadata r.geo r.gdt)) := by
  refine Gets.loop_zero (fun j => OnlyMarked r ((range j).flatMap (groupMeta r.geo r.gdt))) (.refl r)
    fun j _ r' h => ?_
  rw [range_succ, flatMap_append, flatMap_singleton]
  refine markGroup_gets.mono fun r'' h' => ?_
  rw [h.geometry, h.gdt] at h'
  exact h.trans h'

/-! ## Directories -/

section

variable {d : Disk} {r : Repair} {B : Buf}

/-- An entry of a block of a directory, from the offset `first` on. -/
inductive EntryAt (B : Buf) (first : Nat) : Nat → Prop
  | first (h : first < bs) : EntryAt B first first
  | next {off : Nat} (h : EntryAt B first off) (hwf : wellFormed B off = true) (hlt : off + r16 B (off + 4) < bs) :
    EntryAt B first (off + r16 B (off + 4))

variable {first off ino : Nat}

theorem EntryAt.bounds (h : EntryAt B first off) : first ≤ off ∧ off < bs := by
  induction h with
  | first h => exact ⟨le_refl _, h⟩
  | next _ _ hlt ih => exact ⟨by omega, hlt⟩

theorem rec_ge (h : wellFormed B off = true) : 8 ≤ r16 B (off + 4) := by
  simp only [wellFormed, Bool.and_eq_true, decide_eq_true_eq] at h
  exact h.1.1.1

theorem EntryAt.tail (hwf : wellFormed B first = true) (hfirst : first < bs)
    (h : EntryAt B (first + r16 B (first + 4)) off) : EntryAt B first off := by
  induction h with
  | first h => exact .next (.first hfirst) hwf h
  | next _ hwf' hlt ih => exact .next ih hwf' hlt

theorem EntryAt.cases_head (h : EntryAt B first off) :
    off = first ∨ wellFormed B first = true ∧ EntryAt B (first + r16 B (first + 4)) off := by
  induction h with
  | first _ => exact .inl rfl
  | next _ hwf hlt ih =>
    rcases ih with rfl | ⟨hwf', h⟩
    · exact .inr ⟨hwf, .first hlt⟩
    · exact .inr ⟨hwf', .next h hwf hlt⟩

/-- An entry that names no inode, or one with its bit set. -/
def Names (B alloc : Buf) (off : Nat) : Prop := r32 B off = 0 ∨ bit alloc (r32 B off - 1) = true

/-- The entries up to the first that names an inode without a bit in `alloc` are well formed,
and the inodes they name are in range and have their bit in `alloc'`. -/
def DirOk (B : Buf) (first inodes : Nat) (alloc alloc' : Buf) : Prop :=
  ∀ off, EntryAt B first off → (∀ o, EntryAt B first o → o < off → Names B alloc o) →
    wellFormed B off = true ∧ Names B alloc' off ∧ r32 B off ≤ inodes

theorem dirOk_end {inodes : Nat} {alloc alloc' : Buf} (h : bs ≤ first) : DirOk B first inodes alloc alloc' :=
  fun _ hoff => absurd hoff.bounds (by omega)

theorem DirOk.mono {inodes : Nat} {alloc alloc' alloc0 alloc1 : Buf} (h : DirOk B first inodes alloc alloc')
    (h0 : ∀ i, bit alloc0 i = true → bit alloc i = true) (h1 : ∀ i, bit alloc' i = true → bit alloc1 i = true) :
    DirOk B first inodes alloc0 alloc1 := fun off hoff hbefore => by
  obtain ⟨hwf, hnames, hle⟩ := h off hoff fun o ho hlt => (hbefore o ho hlt).imp_right (h0 _)
  exact ⟨hwf, hnames.imp_right (h1 _), hle⟩

theorem readInode_gets : Gets (readInode ino r) d (fun r' =>
    r' = { r with block := blockAt d (inodeBlock r.geo r.gdt ino) } ∧
      inodeOff r.geo ino + 128 ≤ bs) := by
  rw [readInode]
  split
  · exact .fail _
  split
  · exact .throw _
  refine .bind readBlock_gets fun block h => .pure ?_
  rw [h.2]
  exact ⟨rfl, by omega⟩

theorem allocInode_gets :
    Gets (allocInode ino r) d (fun r' => Walked r [] r' ∧ bit r'.inodeAlloc (ino - 1) = true) := by
  refine .bind readInode_gets fun r1 h => ?_
  obtain ⟨rfl, -⟩ := h
  split
  · exact .throw _
  · refine .pure ⟨⟨rfl, rfl, rfl, rfl, rfl, rfl, rfl, rfl, .nil, fun i hi => ?_, Nat.le_succ _,
      fun h => ?_, fun _ h => h⟩, ?_⟩
    · rw [bit_setbit, hi, Bool.true_or]
    · exact absurd h (Nat.succ_ne_self _)
    · rw [bit_setbit, decide_eq_true rfl, Bool.or_true]

/-- An entry that names an inode with its bit set changes nothing. -/
theorem dirEntry_gets : Gets (dirEntry ino r) d (fun r' =>
    Walked r [] r' ∧ (ino = 0 ∨ bit r'.inodeAlloc (ino - 1) = true) ∧ ino ≤ r.inodes ∧
      (ino = 0 ∨ bit r.inodeAlloc (ino - 1) = true → r' = r)) := by
  rw [dirEntry]
  split
  · exact .pure ⟨.refl r, .inl (by assumption), by omega, fun _ => rfl⟩
  split
  · exact .fail _
  split
  · exact .pure ⟨.refl r, .inr (by assumption), by omega, fun _ => rfl⟩
  · exact .orFail _ (allocInode_gets.mono fun r' h => ⟨h.1, .inr h.2, by omega, fun h => absurd h (by tauto)⟩)

/-- A block of a directory. -/
theorem parseDirBlock_gets {n : Nat} (hn : bs ≤ off + 8 * n) : Gets (parseDirBlock n off r) d (fun r' =>
    Walked r [] r' ∧ DirOk r.block off r.inodes r.inodeAlloc r'.inodeAlloc) := by
  induction n generalizing off r with
  | zero => exact .pure ⟨.refl r, dirOk_end hn⟩
  | succ n ih =>
    rw [parseDirBlock]
    split
    · exact .pure ⟨.refl r, dirOk_end (by assumption)⟩
    split
    · exact .fail _
    split
    · exact .fail _
    rename_i hwf
    rw [Bool.not_eq_false] at hwf
    have hrec := rec_ge hwf
    refine .bind dirEntry_gets fun r1 h1 => ?_
    obtain ⟨hw, hnames, hle, hsame⟩ := h1
    refine (ih (by omega)).mono fun r' h' => ⟨hw.trans h'.1, fun o ho hbefore => ?_⟩
    rcases ho.cases_head with rfl | ⟨-, ho'⟩
    · exact ⟨hwf, hnames.imp_right (h'.1.alloc _), hle⟩
    · -- the entry before names an inode with its bit set, so that the block is still there
      have hlt := ho'.bounds
      obtain rfl := hsame (hbefore off (.first (by omega)) (by omega))
      exact h'.2 o ho' fun o1 ho1 => hbefore o1 (ho1.tail hwf (by omega))

end

/-! ## The blocks of an inode -/

section

variable {d : Disk} {isDir : Bool} {s s' s'' : Walk} {l l' leaves leaves' : List Nat}

/-- The blocks that a pointer leads to, through `depth` indirect blocks, with these. -/
def under (d : Disk) : Nat → Nat → List Nat
  | 0, p => if p = 0 then [] else [p]
  | depth + 1, p =>
    if p = 0 then [] else p :: (range (bs / 4)).flatMap fun i => under d depth (r32 (blockAt d p) (i * 4))

/-- The data blocks of a pointer in the order of the file; 0 is a hole. -/
def leavesOf (d : Disk) : Nat → Nat → List Nat
  | 0, p => [p]
  | depth + 1, p =>
    if p = 0 then replicate ((bs / 4) ^ (depth + 1)) 0
    else (range (bs / 4)).flatMap fun i => leavesOf d depth (r32 (blockAt d p) (i * 4))

def nonzero (l : List Nat) : List Nat := l.filter (· ≠ 0)

theorem nonzero_append : nonzero (l ++ l') = nonzero l ++ nonzero l' := filter_append ..

/-- How many blocks a number of bytes takes. -/
def blocksIn (n : Nat) : Nat := (n + (bs - 1)) / bs

/-- The block `p` was walked over when the map was `alloc`, which has at least the inodes of
`old`: its entries are sound as far as the walk looked at them. -/
def Parsed (d : Disk) (old : Buf) (r : Repair) (p : Nat) : Prop :=
  ∃ alloc, (p, alloc) ∈ r.parsed ∧ (∀ i, bit old i = true → bit alloc i = true) ∧
    (∀ i, bit alloc i = true → bit r.inodeAlloc i = true) ∧ DirOk (blockAt d p) 0 r.inodes alloc r.inodeAlloc

theorem Parsed.mono {old old' : Buf} {r r' : Repair} {p : Nat} (h : Parsed d old r p)
    (hold : ∀ i, bit old' i = true → bit old i = true) (hw : Walked r l r') : Parsed d old' r' p := by
  obtain ⟨alloc, hmem, hbefore, hafter, hok⟩ := h
  refine ⟨alloc, hw.parsed hmem, fun i hi => hbefore i (hold i hi), fun i hi => hw.alloc i (hafter i hi), ?_⟩
  rw [hw.geometry]
  exact hok.mono (fun _ hi => hi) hw.alloc

/-- In a part of `scan_inode` the blocks `l` were marked and the data blocks `leaves` visited;
of a directory, those within its size were parsed. -/
structure Visited (d : Disk) (isDir : Bool) (s : Walk) (l leaves : List Nat) (s' : Walk) : Prop where
  walked : Walked s.r l s'.r
  bytes : isDir = true → s'.dirBytes = s.dirBytes - bs * (nonzero leaves).length
  parsed : isDir = true → ∀ p ∈ (nonzero leaves).take (blocksIn s.dirBytes), Parsed d s.r.inodeAlloc s'.r p

namespace Visited

/-- Holes are passed over. -/
theorem skip (h : nonzero leaves = []) : Visited d isDir s [] leaves s :=
  ⟨.refl s.r, fun _ => by rw [h]; rfl, fun _ => by rw [h]; simp⟩

theorem trans (h : Visited d isDir s l leaves s') (h' : Visited d isDir s' l' leaves' s'') :
    Visited d isDir s (l ++ l') (leaves ++ leaves') s'' := by
  refine ⟨h.walked.trans h'.walked, fun hd => ?_, fun hd p hp => ?_⟩
  · rw [h'.bytes hd, h.bytes hd, nonzero_append, length_append, Nat.mul_add, Nat.sub_add_eq]
  · rw [nonzero_append, take_append, mem_append] at hp
    rcases hp with hp | hp
    · exact (h.parsed hd p hp).mono (fun _ hi => hi) h'.walked
    · have hleft : blocksIn s'.dirBytes = blocksIn s.dirBytes - (nonzero leaves).length := by
        rw [h.bytes hd, blocksIn, blocksIn, bs]
        omega
      rw [← hleft] at hp
      exact (h'.parsed hd p hp).mono h.walked.alloc (.refl s''.r)

end Visited

theorem Walked.setBlock (r : Repair) (B : Buf) : Walked r [] { r with block := B } :=
  ⟨rfl, rfl, rfl, rfl, rfl, rfl, rfl, rfl, .nil, fun _ h => h, le_refl _, fun _ => rfl, fun _ h => h⟩

theorem Walked.log (r : Repair) (B : Buf) (x : Nat × Buf) :
    Walked r [] { r with block := B, parsed := x :: r.parsed } :=
  ⟨rfl, rfl, rfl, rfl, rfl, rfl, rfl, rfl, .nil, fun _ h => h, le_refl _, fun _ => rfl, subset_cons_self _ _⟩

variable {b depth : Nat}

theorem dataBlock_gets : Gets (dataBlock isDir b s) d (Visited d isDir s (under d 0 b) [b]) := by
  rw [dataBlock]
  split
  · rename_i hb
    subst hb
    split
    · exact .fail _
    · exact .pure (.skip rfl)
  rename_i hb
  have hnz : nonzero [b] = [b] := by simp [nonzero, hb]
  have hunder : under d 0 b = [b] := by rw [under, if_neg hb]
  rw [hunder]
  refine .bind markBlock_gets fun r1 hm => ?_
  have h1 := hm.walked
  split
  · refine .bind readBlock_gets fun block hblock => ?_
    obtain ⟨-, rfl⟩ := hblock
    refine .bind (parseDirBlock_gets (by decide)) fun r2 h2 => .pure ⟨?_, fun _ => ?_, fun _ p hp => ?_⟩
    · exact h1.trans ((Walked.log r1 _ _).trans h2.1)
    · rw [hnz]
      rfl
    · rw [hnz] at hp
      rw [mem_singleton.mp (mem_of_mem_take hp)]
      refine ⟨r1.inodeAlloc, h2.1.parsed mem_cons_self, h1.alloc, h2.1.alloc, ?_⟩
      rw [h2.1.geometry]
      exact h2.2
  · refine .pure ⟨h1, fun hd => ?_, fun hd p hp => ?_⟩
    all_goals obtain hz : s.dirBytes = 0 := by tauto
    · rw [hz, Nat.zero_sub]
    · rw [hz] at hp
      cases hp

/-- A directory has no hole within its size. -/
theorem dataBlock_hole : Gets (dataBlock isDir b s) d fun _ => isDir = true → b = 0 → s.dirBytes = 0 := by
  rw [dataBlock]
  split
  · split
    · exact .fail _
    · rename_i hdir
      exact .pure fun hd _ => by_contra fun hz => hdir ⟨hd, hz⟩
  · rename_i hb
    refine .bind markBlock_gets fun r1 _ => ?_
    split
    · exact .bind readBlock_gets fun _ _ => .bind (parseDirBlock_gets (by decide)) fun _ _ =>
        .pure fun _ hz => absurd hz hb
    · exact .pure fun _ hz => absurd hz hb

theorem nonzero_leaves_zero : nonzero (leavesOf d depth 0) = [] := by
  cases depth with
  | zero => rfl
  | succ depth =>
    exact filter_eq_nil_iff.mpr fun x hx => by simp [eq_of_mem_replicate hx]

theorem under_zero : under d depth 0 = [] := by
  cases depth with
  | zero => rfl
  | succ depth => rw [under, if_pos rfl]

theorem indirect_gets :
    Gets (indirect isDir depth b s) d (Visited d isDir s (under d depth b) (leavesOf d depth b)) := by
  induction depth generalizing b s with
  | zero =>
    rw [indirect]
    split
    · rename_i hb
      subst hb
      exact .pure (.skip rfl)
    · exact .throw _
  | succ depth ih =>
    rw [indirect]
    split
    · rename_i hb
      subst hb
      exact .pure (.skip nonzero_leaves_zero)
    rename_i hb
    split
    · exact .throw _
    refine .bind markBlock_gets fun r1 h1 => .bind readBlock_gets fun pointers hp => ?_
    obtain ⟨-, rfl⟩ := hp
    rw [under, if_neg hb, leavesOf, if_neg hb]
    refine Gets.loop_zero (fun j s' => Visited d isDir s
      (b :: (range j).flatMap fun i => under d depth (r32 (blockAt d b) (i * 4)))
      ((range j).flatMap fun i => leavesOf d depth (r32 (blockAt d b) (i * 4))) s') ?_ fun j _ s' h => ?_
    · exact ⟨h1.walked, fun _ => rfl, fun _ p hp => by simp [nonzero] at hp⟩
    · rw [range_succ, flatMap_append, flatMap_append, flatMap_singleton, flatMap_singleton]
      split
      · rename_i hz
        rw [hz, under_zero]
        exact .pure (h.trans (.skip nonzero_leaves_zero))
      split
      · rename_i hdepth
        subst hdepth
        exact dataBlock_gets.mono fun s'' h' => h.trans h'
      · exact ih.mono fun s'' h' => h.trans h'

/-- The blocks that an inode leads to. -/
def blocksOf (d : Disk) (inode : Buf) : List Nat :=
  ((range 12).flatMap fun i => under d 0 (r32 inode (40 + i * 4))) ++ under d 1 (r32 inode 88) ++
    under d 2 (r32 inode 92)

/-- The data blocks of an inode in the order of the file. -/
def fileBlocks (d : Disk) (inode : Buf) : List Nat :=
  ((range 12).flatMap fun i => leavesOf d 0 (r32 inode (40 + i * 4))) ++ leavesOf d 1 (r32 inode 88) ++
    leavesOf d 2 (r32 inode 92)

/-- The direct blocks of an inode before number `n`; 0 is a hole. -/
def directBlocks (inode : Buf) (n : Nat) : List Nat := (range n).map fun i => r32 inode (40 + i * 4)

theorem directBlocks_eq (d : Disk) (inode : Buf) (n : Nat) :
    ((range n).flatMap fun i => leavesOf d 0 (r32 inode (40 + i * 4))) = directBlocks inode n := by
  rw [directBlocks, map_eq_flatMap]
  rfl

/-- The size of a directory is within its blocks: no direct block within it is a hole, and
there are enough of them. -/
def Sized (d : Disk) (inode : Buf) (size : Nat) : Prop :=
  (∀ j < 12, r32 inode (40 + j * 4) = 0 → size ≤ bs * (nonzero (directBlocks inode j)).length) ∧
    size ≤ bs * (nonzero (fileBlocks d inode)).length

theorem scanBlocks_gets {inode : Buf} : Gets (scanBlocks isDir inode s) d (fun r' =>
    (∃ s', Visited d isDir s (blocksOf d inode) (fileBlocks d inode) s' ∧ s'.r = r') ∧ r32 inode 96 = 0 ∧
      (isDir = true → Sized d inode s.dirBytes)) := by
  have hdirect : Gets (Try.loop (fun i s => dataBlock isDir (r32 inode (40 + i * 4)) s) 12 0 s) d
      (fun s' => Visited d isDir s ((range 12).flatMap fun i => under d 0 (r32 inode (40 + i * 4)))
        ((range 12).flatMap fun i => leavesOf d 0 (r32 inode (40 + i * 4))) s' ∧
        ∀ j < 12, isDir = true → r32 inode (40 + j * 4) = 0 →
          s.dirBytes ≤ bs * (nonzero (directBlocks inode j)).length) := by
    refine Gets.loop_zero (fun j s' => Visited d isDir s
      ((range j).flatMap fun i => under d 0 (r32 inode (40 + i * 4)))
      ((range j).flatMap fun i => leavesOf d 0 (r32 inode (40 + i * 4))) s' ∧
      ∀ k < j, isDir = true → r32 inode (40 + k * 4) = 0 →
        s.dirBytes ≤ bs * (nonzero (directBlocks inode k)).length) ⟨.skip rfl, by simp⟩ fun j _ s' h => ?_
    rw [range_succ, flatMap_append, flatMap_append, flatMap_singleton]
    refine (dataBlock_gets.and dataBlock_hole).mono fun s'' h' => ⟨h.1.trans h'.1, fun k hk hd hz => ?_⟩
    rcases Nat.lt_succ_iff_lt_or_eq.mp hk with hk | rfl
    · exact h.2 k hk hd hz
    · have hbytes := h.1.bytes hd
      rw [h'.2 hd hz, directBlocks_eq] at hbytes
      omega
  refine .bind hdirect fun s1 h1 => .bind indirect_gets fun s2 h2 => .bind indirect_gets fun s3 h3 => ?_
  have h := (h1.1.trans h2).trans h3
  split
  · exact .fail _
  split
  · exact .fail _
  · rename_i htriple hbytes
    refine .pure ⟨⟨s3, h, rfl⟩, not_not.mp htriple, fun hd => ⟨fun j hj => h1.2 j hj hd, ?_⟩⟩
    have hleft := h.bytes hd
    have hz : s3.dirBytes = 0 := by tauto
    rw [hz] at hleft
    exact Nat.le_of_sub_eq_zero hleft.symm

end

/-! ## Inodes -/

section

variable {d : Disk} {r : Repair} {ino : Nat}

/-- An inode on the disk. -/
def inodeAt (d : Disk) (geo : Geometry) (gdt : Buf) (ino : Nat) : Buf :=
  inodeOf (inodeOff geo ino) (blockAt d (inodeBlock geo gdt ino))

/-- The type of an inode. -/
def modeOf (inode : Buf) : Nat := r16 inode 0 &&& sIfmt

/-- The blocks of an inode are looked at: of regular files, directories and slow symbolic
links, but not of reserved inodes. -/
def InScope (geo : Geometry) (ino : Nat) (inode : Buf) : Prop :=
  modeOf inode ≠ 0 ∧ skipsInode geo.firstIno ino inode = false

instance (geo : Geometry) (ino : Nat) (inode : Buf) : Decidable (InScope geo ino inode) :=
  inferInstanceAs (Decidable (_ ∧ _))

/-- The blocks that are reached from an inode. -/
def reached (d : Disk) (geo : Geometry) (gdt : Buf) (ino : Nat) : List Nat :=
  if InScope geo ino (inodeAt d geo gdt ino) then blocksOf d (inodeAt d geo gdt ino) else []

/-- The blocks of a directory within its size. -/
def dirBlocks (d : Disk) (inode : Buf) : List Nat := (nonzero (fileBlocks d inode)).take (blocksIn (r32 inode 4))

/-- A directory whose entries are looked at. -/
def IsDirectory (geo : Geometry) (ino : Nat) (inode : Buf) : Prop := InScope geo ino inode ∧ modeOf inode = sIfdir

instance (geo : Geometry) (ino : Nat) (inode : Buf) : Decidable (IsDirectory geo ino inode) :=
  inferInstanceAs (Decidable (_ ∧ _))

/-- What `scan_inode` asks of an inode, but for its blocks. -/
structure Fit (d : Disk) (geo : Geometry) (ino : Nat) (inode : Buf) : Prop where
  off : inodeOff geo ino + 128 ≤ bs
  typed : modeOf inode = 0 → ino < geo.firstIno ∧ ino ≠ 2
  triple : InScope geo ino inode → r32 inode 96 = 0
  sized : IsDirectory geo ino inode → Sized d inode (r32 inode 4)

/-- The variables after the scan of an inode. -/
structure ScannedInode (d : Disk) (r : Repair) (ino : Nat) (r' : Repair) : Prop where
  walked : Walked { r with dirsPerGroup := r'.dirsPerGroup } (reached d r.geo r.gdt ino) r'
  dirs : ∀ g, r'.dirsPerGroup g = r.dirsPerGroup g +
    if IsDirectory r.geo ino (inodeAt d r.geo r.gdt ino) ∧ (ino - 1) / r.ipg = g then 1 else 0
  fit : Fit d r.geo ino (inodeAt d r.geo r.gdt ino)
  parsed : InScope r.geo ino (inodeAt d r.geo r.gdt ino) →
    modeOf (inodeAt d r.geo r.gdt ino) = sIfdir →
      ∀ p ∈ dirBlocks d (inodeAt d r.geo r.gdt ino), Parsed d r.inodeAlloc r' p

theorem Walked.setDirs {r r' : Repair} {l : List Nat} (h : Walked r l r') :
    Walked { r with dirsPerGroup := r'.dirsPerGroup } l r' :=
  ⟨h.geometry, h.sectors, h.sb, h.gdt, h.scanned, rfl, h.missingBlocks, h.mismatches, h.marked, h.alloc, h.missing,
    h.same, h.parsed⟩

theorem ScannedInode.of_out {r' : Repair} {inode : Buf} (hi : inodeAt d r.geo r.gdt ino = inode)
    (hout : ¬ InScope r.geo ino inode) (hoff : inodeOff r.geo ino + 128 ≤ bs)
    (htyped : modeOf inode = 0 → ino < r.firstIno ∧ ino ≠ 2) (hw : Walked r [] r') : ScannedInode d r ino r' := by
  subst hi
  refine ⟨?_, fun g => ?_, ⟨hoff, htyped, fun h => absurd h hout, fun h => absurd h.1 hout⟩, fun h => absurd h hout⟩
  · rw [reached, if_neg hout]
    exact hw.setDirs
  · rw [if_neg fun h => hout h.1.1, hw.dirs, Nat.add_zero]

theorem countDirectory_dirs (r : Repair) (ino g : Nat) :
    (countDirectory ino r).dirsPerGroup g = r.dirsPerGroup g + if (ino - 1) / r.ipg = g then 1 else 0 := by
  by_cases hg : (ino - 1) / r.ipg = g
  · subst hg
    simp [countDirectory]
  · simp [countDirectory, hg, Function.update_of_ne (Ne.symm hg)]

theorem scanInode_gets : Gets (scanInode ino r) d (ScannedInode d r ino) := by
  refine .bind readInode_gets fun r1 h => ?_
  obtain ⟨hr1, hoff⟩ := h
  have hw : Walked r [] r1 := hr1 ▸ .setBlock r _
  have hinode : inodeOf (inodeOff r1.geo ino) r1.block = inodeAt d r.geo r.gdt ino := by
    rw [hr1]
    rfl
  have hfirst : r1.firstIno = r.firstIno := by rw [hw.geometry]
  rw [hinode, hfirst]
  generalize hi : inodeAt d r.geo r.gdt ino = inode
  by_cases hzero : r16 inode 0 &&& sIfmt = 0
  · have hout : ¬ InScope r.geo ino inode := fun h => h.1 hzero
    rw [if_pos hzero]
    split
    · rename_i hres
      exact .pure (.of_out hi hout hoff (fun _ => hres) hw)
    · exact .fail _
  rw [if_neg hzero]
  by_cases hskip : skipsInode r.firstIno ino inode = true
  · have hout : ¬ InScope r.geo ino inode := fun h => Bool.false_ne_true (h.2.symm.trans hskip)
    rw [if_pos hskip]
    exact .pure (.of_out hi hout hoff (fun hz => absurd hz hzero) hw)
  have hin : InScope r.geo ino inode := ⟨hzero, Bool.eq_false_of_not_eq_true hskip⟩
  rw [if_neg hskip]
  by_cases hdir : r16 inode 0 &&& sIfmt = sIfdir
  · rw [if_pos hdir]
    refine scanBlocks_gets.mono fun r' h' => ?_
    obtain ⟨⟨s', hv, rfl⟩, htriple, hsized⟩ := h'
    have hc : Walked { r with dirsPerGroup := (countDirectory ino r1).dirsPerGroup } [] (countDirectory ino r1) := by
      rw [hr1]
      exact ⟨rfl, rfl, rfl, rfl, rfl, rfl, rfl, rfl, .nil, fun _ h => h, le_refl _, fun _ => rfl, fun _ h => h⟩
    refine ⟨?_, fun g => ?_, ?_, fun _ _ p hp => ?_⟩
    · rw [reached, hi, if_pos hin]
      have hall := hc.trans hv.walked
      rwa [← hv.walked.dirs] at hall
    · rw [hv.walked.dirs, hi, countDirectory_dirs, hr1]
      simp only [show IsDirectory r.geo ino inode from ⟨hin, hdir⟩, true_and]
    · rw [hi]
      exact ⟨hoff, fun hz => absurd hz hzero, fun _ => htriple, fun _ => hsized rfl⟩
    · rw [hi] at hp
      have := hv.parsed rfl p hp
      rw [hr1] at this
      exact this
  · rw [if_neg hdir]
    refine scanBlocks_gets.mono fun r' h' => ?_
    obtain ⟨⟨s', hv, rfl⟩, htriple, -⟩ := h'
    have hno : ¬ IsDirectory r.geo ino inode := fun h => hdir h.2
    refine ⟨?_, fun g => ?_, ?_, fun _ hd => absurd (hi ▸ hd) hdir⟩
    · rw [reached, hi, if_pos hin]
      exact (hw.trans hv.walked).setDirs
    · rw [hi, if_neg fun h => hno h.1, Nat.add_zero, hv.walked.dirs, hw.dirs]
    · rw [hi]
      exact ⟨hoff, fun hz => absurd hz hzero, fun _ => htriple, fun h => absurd h hno⟩

end

end Lorica.Proof.Install
