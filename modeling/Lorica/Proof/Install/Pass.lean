import Lorica.Proof.Install.Repair

/-!
# ext2_repair: images that pass the check

The other direction of the specifications of the check. They say what is known when a part
of it ends well; here it is shown to end well, without faults, on what it asks for:
`Finds p d P`. Blocks that are to be marked must be in range, different and not marked
before (`Fresh`), and a directory must have well formed entries for allocated inodes
(`GoodDir`). Then no inode is missing, and the scan is over what the bitmaps on the disk
say.
-/

namespace Lorica.Proof.Install

open Lorica.Impl.Install Disk List

variable {d : Disk} {r r' : Repair} {l l' : List Nat}

section

variable {α β σ : Type} {P P' : α → Prop}

/-- Without faults, the program ends well, has changed nothing, and its result is as `P` says. -/
def Finds (p : Rep α) (d : Disk) (P : α → Prop) : Prop := Succeeds p d fun a d' => d' = d ∧ P a

namespace Finds

theorem pure {a : α} (h : P a) : Finds (Pure.pure a) d P := by
  rw [Finds]
  exact Try.WP.pure ⟨rfl, h⟩

variable {p : Rep α}

theorem mono (h : Finds p d P) (hP : ∀ a, P a → P' a) : Finds p d P' :=
  Try.WP.mono h fun a _ ha => ⟨ha.1, hP a ha.2⟩

theorem bind {f : α → Rep β} {R : β → Prop} (h : Finds p d P) (hf : ∀ a, P a → Finds (f a) d R) :
    Finds (p >>= f) d R := by
  refine Try.WP.bind h fun a d' ha => ?_
  obtain ⟨rfl, ha⟩ := ha
  exact hf a ha

theorem orFail (s : String) (h : Finds p d P) : Finds (Impl.Install.orFail s p) d P := Try.WP.adapt h

theorem loop {f : Nat → σ → Rep σ} {n i : Nat} {x : σ} (I : Nat → σ → Prop) (h : I i x)
    (hstep : ∀ j, i ≤ j → j < i + n → ∀ x, I j x → Finds (f j x) d (I (j + 1))) :
    Finds (Try.loop f n i x) d (I (i + n)) := by
  refine Try.WP.loop (M := machine) (I := fun j x d' => d' = d ∧ I j x) ⟨rfl, h⟩ fun j hj hj' x d' hI => ?_
  obtain ⟨rfl, hI⟩ := hI
  exact hstep j hj hj' x hI

theorem loop_zero {f : Nat → σ → Rep σ} {n : Nat} {x : σ} (I : Nat → σ → Prop) (h : I 0 x)
    (hstep : ∀ j < n, ∀ x, I j x → Finds (f j x) d (I (j + 1))) : Finds (Try.loop f n 0 x) d (I n) := by
  have := loop (n := n) I h fun j _ hj => hstep j (by omega)
  rwa [Nat.zero_add] at this

/-- What is known of the results that are good holds of this one. -/
theorem and_gets (h : Finds p d P) (h' : Gets p d P') : Finds p d fun a => P a ∧ P' a := by
  have hno : Try.WP (Allows false) p d (fun a d' => d' = d ∧ P' a) (fun _ d' => d' = d)
      fun o d' => o.isWrite = false ∧ d' = d := by
    refine Lorica.WP.restrict h' fun c hc => ?_
    cases c with
    | ok => trivial
    | fail k => cases hc
  refine Lorica.WP.ends (Lorica.WP.and h hno) fun res d' hr => ?_
  cases res with
  | ok a => exact ⟨hr.1.1, hr.1.2, hr.2.2⟩
  | error e => exact hr.1

end Finds

end

/-! ## Marks -/

/-- The device has the sectors, and the blocks are on them. -/
structure OnDevice (d : Disk) (r : Repair) : Prop where
  size : r.sectors * 512 ≤ d.size
  blocks : r.blocks * spb ≤ r.sectors

theorem Walked.onDevice (h : Walked r l r') (hd : OnDevice d r) : OnDevice d r' := by
  obtain ⟨hsize, hblocks⟩ := hd
  exact ⟨h.sectors ▸ hsize, by rwa [h.sectors, h.geometry]⟩

variable {b n ino : Nat} {r₀ : Repair}

theorem readBlock_finds (hd : OnDevice d r) (hb : b < r.blocks) :
    Finds (readBlock r b) d (fun buf => buf = blockAt d b) := by
  have hin : b * spb + spb ≤ r.sectors := by
    have hblocks := hd.blocks
    simp only [spb] at hblocks ⊢
    omega
  rw [readBlock, if_neg (by omega)]
  exact rwRead_succeeds hd.size hin

/-- The blocks `l` can be marked. -/
structure Fresh (r : Repair) (l : List Nat) : Prop where
  lt : ∀ b ∈ l, b < r.blocks
  fresh : ∀ b ∈ l, bit r.blockRefs b = false
  nodup : l.Nodup

theorem Fresh.left (h : Fresh r (l ++ l')) : Fresh r l :=
  ⟨fun b hb => h.lt b (mem_append_left _ hb), fun b hb => h.fresh b (mem_append_left _ hb),
    (nodup_append.mp h.nodup).1⟩

/-- When the first of them have been marked, the others can be. -/
theorem Fresh.right (h : Fresh r (l ++ l')) (hw : Walked r l r') : Fresh r' l' := by
  obtain ⟨-, hnodup, hdis⟩ := nodup_append.mp h.nodup
  refine ⟨fun b hb => ?_, fun b hb => ?_, hnodup⟩
  · rw [hw.geometry]
    exact h.lt b (mem_append_right _ hb)
  · rw [← Bool.not_eq_true, hw.marked.bits]
    rintro (hold | hmem)
    · rw [h.fresh b (mem_append_right _ hb)] at hold
      cases hold
    · exact hdis b hmem b hb rfl

theorem markBlock_finds (h : Fresh r [b]) : Finds (markBlock b r) d (OnlyMarked r [b]) := by
  have hlt := h.lt b mem_cons_self
  have hmark : Finds (markBlock b r) d fun _ => True := by
    rw [markBlock, if_neg (by omega), if_neg (by rw [h.fresh b mem_cons_self]; exact Bool.false_ne_true)]
    exact .pure trivial
  exact (hmark.and_gets markBlock_gets).mono fun _ h => h.2

theorem markRange_finds (h : Fresh r (range' b n)) :
    Finds (Try.loop markBlock n b r) d (OnlyMarked r (range' b n)) := by
  have hloop : Finds (Try.loop markBlock n b r) d (OnlyMarked r (range' b (b + n - b))) := by
    refine Finds.loop (fun j r' => OnlyMarked r (range' b (j - b)) r') ?_ fun j hj hj' r' hr => ?_
    · rw [Nat.sub_self]
      exact .refl r
    · have hsplit : range' b n = range' b (j - b) ++ ([j] ++ range' (j + 1) (b + n - (j + 1))) := by
        have := range'_append_1 (s := b) (m := j - b) (n := b + n - (j + 1) + 1)
        rw [show b + (j - b) = j by omega, show j - b + (b + n - (j + 1) + 1) = n by omega] at this
        exact this.symm
      rw [hsplit] at h
      refine (markBlock_finds (h.right hr.walked).left).mono fun r'' h' => ?_
      rw [Nat.sub_add_comm hj, range'_1_concat, Nat.add_sub_cancel' hj]
      exact hr.trans h'
  rwa [Nat.add_sub_cancel_left] at hloop

theorem markGroup_finds {g : Nat} (hp : Placed r.geo r.gdt g) (h : Fresh r (groupMeta r.geo r.gdt g)) :
    Finds (markGroup g r) d (OnlyMarked r (groupMeta r.geo r.gdt g)) := by
  have hmark : Finds (markGroup g r) d fun _ => True := by
    rw [Placed] at hp
    rw [markGroup, if_neg (by omega)]
    have h' := h
    rw [groupMeta, append_assoc, append_assoc] at h'
    refine .bind (markRange_finds h'.left) fun r1 h1 => ?_
    have hf1 := h'.right h1.walked
    refine .bind (markBlock_finds hf1.left) fun r2 h2 => ?_
    have hf2 := hf1.right h2.walked
    refine .bind (markBlock_finds hf2.left) fun r3 h3 => ?_
    have hf3 := hf2.right h3.walked
    have hblocks : r3.inodeTableBlocks = r.inodeTableBlocks := by rw [h3.geometry, h2.geometry, h1.geometry]
    rw [← hblocks] at hf3
    exact (markRange_finds hf3).mono fun _ _ => trivial
  exact (hmark.and_gets markGroup_gets).mono fun _ h => h.2

/-- A list of blocks, up to number `j`, then that one and the rest. -/
theorem flatMap_range_split (f : Nat → List Nat) {j : Nat} (hj : j < n) : (range n).flatMap f =
    (range j).flatMap f ++ (f j ++ (range' (j + 1) (n - (j + 1))).flatMap f) := by
  have hrange : range n = range j ++ (j :: range' (j + 1) (n - (j + 1))) := by
    have := range'_append_1 (s := 0) (m := j) (n := n - (j + 1) + 1)
    rw [Nat.zero_add, show j + (n - (j + 1) + 1) = n by omega] at this
    rw [range_eq_range', range_eq_range', ← this]
    rfl
  rw [hrange, flatMap_append, flatMap_cons]

theorem markMetadata_finds (hp : ∀ g < r.groups, Placed r.geo r.gdt g)
    (h : Fresh r (metadata r.geo r.gdt)) :
    Finds (markMetadata r) d (OnlyMarked r (metadata r.geo r.gdt)) := by
  refine Finds.loop_zero (fun j => OnlyMarked r ((range j).flatMap (groupMeta r.geo r.gdt))) (.refl r)
    fun j hj r' hr => ?_
  rw [metadata, flatMap_range_split _ hj] at h
  rw [range_succ, flatMap_append, flatMap_singleton]
  have hf := (h.right hr.walked).left
  have hpj := hp j hj
  rw [← hr.geometry, ← hr.gdt] at hf hpj
  refine (markGroup_finds hpj hf).mono fun r'' h' => ?_
  rw [hr.geometry, hr.gdt] at h'
  exact hr.trans h'

/-! ## Inodes -/

theorem loadInodeMaps_finds (hd : OnDevice d r) (hmaps : ∀ g < r.groups, inodeBitmap r.gdt g < r.blocks) :
    Finds (loadInodeMaps r) d fun _ => True := by
  refine (Finds.loop_zero (fun _ r' => OnDevice d r' ∧ r'.geo = r.geo ∧ r'.gdt = r.gdt) ⟨hd, rfl, rfl⟩
    fun j hj r' h => ?_).mono fun _ _ => trivial
  obtain ⟨hd', hgeo, hgdt⟩ := h
  have hb : inodeBitmap r'.gdt j < r'.blocks := by
    rw [hgdt, hgeo]
    exact hmaps j hj
  exact .bind (readBlock_finds hd' hb) fun block _ => .pure ⟨⟨hd'.size, hd'.blocks⟩, hgeo, hgdt⟩

theorem readInode_finds (hd : OnDevice d r) (hino : ino ≠ 0 ∧ ino ≤ r.inodes)
    (hoff : inodeOff r.geo ino + 128 ≤ bs) (hb : inodeBlock r.geo r.gdt ino < r.blocks) :
    Finds (readInode ino r) d fun r' => r' = { r with block := blockAt d (inodeBlock r.geo r.gdt ino) } := by
  have hread : Finds (readInode ino r) d fun _ => True := by
    rw [readInode, if_neg (by omega), if_neg (by omega)]
    exact .bind (readBlock_finds hd hb) fun block _ => .pure trivial
  exact (hread.and_gets readInode_gets).mono fun _ h => h.2.1

/-- The entries of a block of a directory, from an offset on, are well formed and name
allocated inodes. -/
def GoodDir (B : Buf) (first inodes : Nat) (alloc : Buf) : Prop :=
  ∀ off, EntryAt B first off → wellFormed B off = true ∧
    (r32 B off = 0 ∨ r32 B off ≤ inodes ∧ bit alloc (r32 B off - 1) = true)

theorem dirEntry_finds (h : ino = 0 ∨ ino ≤ r.inodes ∧ bit r.inodeAlloc (ino - 1) = true) :
    Finds (dirEntry ino r) d fun r' => r' = r := by
  rw [dirEntry]
  split
  · exact .pure rfl
  · rename_i hne
    obtain ⟨hle, hbit⟩ := h.resolve_left hne
    rw [if_neg (by omega), if_pos hbit]
    exact .pure rfl

theorem rec_le {B : Buf} {off : Nat} (h : wellFormed B off = true) : r16 B (off + 4) ≤ bs - off := by
  simp only [wellFormed, Bool.and_eq_true, decide_eq_true_eq] at h
  exact h.1.2

theorem parseDirBlock_finds {off : Nat} (h : GoodDir r.block off r.inodes r.inodeAlloc) :
    Finds (parseDirBlock n off r) d fun r' => r' = r := by
  induction n generalizing off with
  | zero => exact .pure rfl
  | succ n ih =>
    rw [parseDirBlock]
    split
    · exact .pure rfl
    have hlt : off < bs := by omega
    obtain ⟨hwf, hname⟩ := h off (.first hlt)
    have hge := rec_ge hwf
    have hle := rec_le hwf
    rw [if_neg (by omega), if_neg (by rw [hwf]; exact Bool.false_ne_true.symm)]
    refine .bind (dirEntry_finds hname) fun r1 h1 => ?_
    subst h1
    exact ih fun o ho => h o (ho.tail hwf hlt)

section

variable {isDir : Bool} {s s' : Walk} {leaves leaves' : List Nat}

/-- The blocks `l` can be marked, and of the data blocks `leaves` those within the size of a
directory are good. -/
structure Open (d : Disk) (isDir : Bool) (s : Walk) (l leaves : List Nat) : Prop where
  device : OnDevice d s.r
  fresh : Fresh s.r l
  good : isDir = true → ∀ p ∈ (nonzero leaves).take (blocksIn s.dirBytes),
    GoodDir (blockAt d p) 0 s.r.inodes s.r.inodeAlloc

theorem Open.left (h : Open d isDir s (l ++ l') (leaves ++ leaves')) : Open d isDir s l leaves := by
  refine ⟨h.device, h.fresh.left, fun hd p hp => h.good hd p ?_⟩
  rw [nonzero_append, take_append]
  exact mem_append_left _ hp

/-- The part before was visited, and no inode was missing. -/
theorem Open.right (h : Open d isDir s (l ++ l') (leaves ++ leaves')) (hv : Visited d isDir s l leaves s')
    (hsame : s'.r.missingInodes = s.r.missingInodes) : Open d isDir s' l' leaves' := by
  refine ⟨hv.walked.onDevice h.device, h.fresh.right hv.walked, fun hd p hp => ?_⟩
  rw [hv.walked.geometry, hv.walked.same hsame]
  refine h.good hd p ?_
  rw [nonzero_append, take_append]
  refine mem_append_right _ ?_
  have hleft : blocksIn s'.dirBytes = blocksIn s.dirBytes - (nonzero leaves).length := by
    rw [hv.bytes hd, blocksIn, blocksIn, bs]
    omega
  rwa [← hleft]

variable {b : Nat}

theorem dataBlock_finds (h : Open d isDir s (under d 0 b) [b])
    (hhole : isDir = true → b = 0 → s.dirBytes = 0) : Finds (dataBlock isDir b s) d fun s' =>
      s'.r.missingInodes = s.r.missingInodes ∧ Visited d isDir s (under d 0 b) [b] s' := by
  have hfinds : Finds (dataBlock isDir b s) d fun s' => s'.r.missingInodes = s.r.missingInodes := by
    rw [dataBlock]
    split
    · rename_i hb
      rw [if_neg fun hd => hd.2 (hhole hd.1 hb)]
      exact .pure rfl
    rename_i hb
    have hunder : under d 0 b = [b] := by rw [under, if_neg hb]
    have hfresh := h.fresh
    rw [hunder] at hfresh
    refine .bind (markBlock_finds hfresh) fun r1 h1 => ?_
    have hw := h1.walked
    have heq : r1.missingInodes = s.r.missingInodes := by rw [h1.eq]
    split
    · rename_i hd
      have hin : b ∈ (nonzero [b]).take (blocksIn s.dirBytes) := by
        have hpos : blocksIn s.dirBytes = blocksIn s.dirBytes - 1 + 1 := by
          rw [blocksIn, bs]
          omega
        rw [hpos, show nonzero [b] = [b] by simp [nonzero, hb]]
        exact mem_cons_self
      have hgood := h.good hd.1 b hin
      have hlt := hfresh.lt b mem_cons_self
      rw [← hw.geometry] at hgood hlt
      rw [← hw.same heq] at hgood
      refine .bind (readBlock_finds (hw.onDevice h.device) hlt) fun block hblock => ?_
      subst hblock
      refine .bind (parseDirBlock_finds
        (r := { r1 with block := blockAt d b, parsed := (b, r1.inodeAlloc) :: r1.parsed }) hgood) fun r2 h2 => .pure ?_
      rw [h2]
      exact heq
    · exact .pure heq
  exact hfinds.and_gets dataBlock_gets

theorem Visited.refl (s : Walk) : Visited d isDir s [] [] s := .skip rfl

/-- A loop over pointers, each of which is visited. -/
theorem pointers_finds {f : Nat → Walk → Rep Walk} {n : Nat} {blocks leaves : Nat → List Nat}
    (h : Open d isDir s ((range n).flatMap blocks) ((range n).flatMap leaves))
    (hstep : ∀ j < n, ∀ s', Open d isDir s' (blocks j) (leaves j) →
      (isDir = true → s'.dirBytes = s.dirBytes - bs * (nonzero ((range j).flatMap leaves)).length) →
      Finds (f j s') d fun s'' => s''.r.missingInodes = s'.r.missingInodes ∧
        Visited d isDir s' (blocks j) (leaves j) s'') :
    Finds (Try.loop f n 0 s) d fun s' => s'.r.missingInodes = s.r.missingInodes ∧
      Visited d isDir s ((range n).flatMap blocks) ((range n).flatMap leaves) s' := by
  refine Finds.loop_zero (fun j s' => s'.r.missingInodes = s.r.missingInodes ∧
    Visited d isDir s ((range j).flatMap blocks) ((range j).flatMap leaves) s') ⟨rfl, .refl s⟩
    fun j hj s' hs => ?_
  have hopen := h
  rw [flatMap_range_split blocks hj, flatMap_range_split leaves hj] at hopen
  refine (hstep j hj s' (hopen.right hs.2 hs.1).left hs.2.bytes).mono fun s'' h' => ⟨h'.1.trans hs.1, ?_⟩
  rw [range_succ, flatMap_append, flatMap_append, flatMap_singleton, flatMap_singleton]
  exact hs.2.trans h'.2

/-- The blocks that a pointer leads to, when those that a pointer in its block leads to are
visited. -/
theorem indirect_step {depth : Nat} (hdepth : depth < 2)
    (hnext : ∀ p s, p ≠ 0 → Open d isDir s (under d depth p) (leavesOf d depth p) →
      Finds (if depth = 0 then dataBlock isDir p s else indirect isDir depth p s) d fun s' =>
        s'.r.missingInodes = s.r.missingInodes ∧ Visited d isDir s (under d depth p) (leavesOf d depth p) s')
    (h : Open d isDir s (under d (depth + 1) b) (leavesOf d (depth + 1) b)) :
    Finds (indirect isDir (depth + 1) b s) d fun s' => s'.r.missingInodes = s.r.missingInodes ∧
      Visited d isDir s (under d (depth + 1) b) (leavesOf d (depth + 1) b) s' := by
  have hfinds : Finds (indirect isDir (depth + 1) b s) d fun s' => s'.r.missingInodes = s.r.missingInodes := by
    rw [indirect]
    split
    · exact .pure rfl
    rename_i hb
    rw [under, if_neg hb, leavesOf, if_neg hb] at h
    rw [if_neg (by omega)]
    have hsplit : Open d isDir s
        ([b] ++ (range (bs / 4)).flatMap fun i => under d depth (r32 (blockAt d b) (i * 4)))
        ([] ++ (range (bs / 4)).flatMap fun i => leavesOf d depth (r32 (blockAt d b) (i * 4))) := by
      rw [singleton_append, nil_append]
      exact h
    have hfresh := hsplit.fresh
    refine .bind (markBlock_finds hfresh.left) fun r1 h1 => ?_
    have hw := h1.walked
    have heq : r1.missingInodes = s.r.missingInodes := by rw [h1.eq]
    have hlt : b < r1.blocks := by
      rw [hw.geometry]
      exact hfresh.left.lt b mem_cons_self
    have hv : Visited d isDir s [b] [] { s with r := r1 } := ⟨hw, fun _ => rfl, fun _ p hp => by simp [nonzero] at hp⟩
    have hopen := hsplit.right hv heq
    refine .bind (readBlock_finds (hw.onDevice h.device) hlt) fun pointers hp => ?_
    subst hp
    refine (pointers_finds hopen fun j _ s' hs _ => ?_).mono fun s' h' => h'.1.trans heq
    split
    · rename_i hz
      rw [hz, under_zero]
      exact .pure ⟨rfl, .skip nonzero_leaves_zero⟩
    · exact hnext _ s' (by assumption) hs
  exact hfinds.and_gets indirect_gets

theorem indirect_finds {depth : Nat} (hdepth : depth < 2)
    (h : Open d isDir s (under d (depth + 1) b) (leavesOf d (depth + 1) b)) :
    Finds (indirect isDir (depth + 1) b s) d fun s' => s'.r.missingInodes = s.r.missingInodes ∧
      Visited d isDir s (under d (depth + 1) b) (leavesOf d (depth + 1) b) s' := by
  induction depth generalizing b s with
  | zero =>
    refine indirect_step hdepth (fun p s hp hs => ?_) h
    exact dataBlock_finds hs fun _ hz => absurd hz hp
  | succ depth ih =>
    refine indirect_step hdepth (fun p s _ hs => ?_) h
    exact ih (by omega) hs

theorem scanBlocks_finds {inode : Buf} (h : Open d isDir s (blocksOf d inode) (fileBlocks d inode))
    (htriple : r32 inode 96 = 0) (hsized : isDir = true → Sized d inode s.dirBytes) :
    Finds (scanBlocks isDir inode s) d fun r' => r'.missingInodes = s.r.missingInodes := by
  rw [blocksOf, fileBlocks, append_assoc, append_assoc] at h
  have hdirect := pointers_finds (f := fun i s => dataBlock isDir (r32 inode (40 + i * 4)) s) h.left
    fun j hj s' hs hbytes => dataBlock_finds hs fun hd hz => by
      have hle := (hsized hd).1 j hj hz
      rw [hbytes hd, directBlocks_eq]
      exact Nat.sub_eq_zero_of_le hle
  refine .bind hdirect fun s1 h1 => ?_
  have ho1 := h.right h1.2 h1.1
  refine .bind (indirect_finds (by decide) ho1.left) fun s2 h2 => ?_
  have ho2 := ho1.right h2.2 h2.1
  refine .bind (indirect_finds (by decide) ho2) fun s3 h3 => ?_
  have hv := (h1.2.trans h2.2).trans h3.2
  have hall : ¬ (isDir = true ∧ s3.dirBytes ≠ 0) := by
    rintro ⟨hd, hne⟩
    rw [hv.bytes hd] at hne
    exact hne (Nat.sub_eq_zero_of_le (hsized hd).2)
  rw [if_neg (not_not.mpr htriple), if_neg hall]
  exact .pure (h3.1.trans (h2.1.trans h1.1))

end

/-- What `scan_inode` asks of an inode in the variables `r`. -/
structure Scannable (d : Disk) (r : Repair) (ino : Nat) : Prop where
  range : ino ≠ 0 ∧ ino ≤ r.inodes
  block : inodeBlock r.geo r.gdt ino < r.blocks
  fit : Fit d r.geo ino (inodeAt d r.geo r.gdt ino)
  fresh : Fresh r (reached d r.geo r.gdt ino)
  good : IsDirectory r.geo ino (inodeAt d r.geo r.gdt ino) →
    ∀ p ∈ dirBlocks d (inodeAt d r.geo r.gdt ino), GoodDir (blockAt d p) 0 r.inodes r.inodeAlloc

theorem scanInode_finds (hd : OnDevice d r) (h : Scannable d r ino) :
    Finds (scanInode ino r) d fun r' => r'.missingInodes = r.missingInodes ∧ ScannedInode d r ino r' := by
  obtain ⟨hino, hb, hfit, hfresh, hgood⟩ := h
  have hfinds : Finds (scanInode ino r) d fun r' => r'.missingInodes = r.missingInodes := by
    refine .bind (readInode_finds hd hino hfit.off hb) fun r1 h1 => ?_
    have hw : Walked r [] r1 := h1 ▸ .setBlock r _
    have hinode : inodeOf (inodeOff r1.geo ino) r1.block = inodeAt d r.geo r.gdt ino := by
      rw [h1]
      rfl
    have hfirst : r1.firstIno = r.firstIno := by rw [hw.geometry]
    have heq : r1.missingInodes = r.missingInodes := by rw [h1]
    rw [reached] at hfresh
    rw [hinode, hfirst]
    generalize inodeAt d r.geo r.gdt ino = inode at hfit hgood hfresh
    by_cases hzero : r16 inode 0 &&& sIfmt = 0
    · rw [if_pos hzero, if_pos (hfit.typed hzero)]
      exact .pure heq
    rw [if_neg hzero]
    by_cases hskip : skipsInode r.firstIno ino inode = true
    · rw [if_pos hskip]
      exact .pure heq
    have hin : InScope r.geo ino inode := ⟨hzero, Bool.eq_false_of_not_eq_true hskip⟩
    rw [if_pos hin] at hfresh
    rw [if_neg hskip]
    subst h1
    by_cases hdir : r16 inode 0 &&& sIfmt = sIfdir
    · rw [if_pos hdir]
      refine scanBlocks_finds ⟨⟨hd.size, hd.blocks⟩, ⟨hfresh.lt, hfresh.fresh, hfresh.nodup⟩, fun _ => ?_⟩
        (hfit.triple hin) fun _ => hfit.sized ⟨hin, hdir⟩
      exact hgood ⟨hin, hdir⟩
    · rw [if_neg hdir]
      refine scanBlocks_finds ⟨⟨hd.size, hd.blocks⟩, ⟨hfresh.lt, hfresh.fresh, hfresh.nodup⟩, fun h => ?_⟩
        (hfit.triple hin) fun h => ?_
      all_goals exact absurd h Bool.false_ne_true
  exact hfinds.and_gets scanInode_gets

/-! ## All inodes -/

/-- What the scan asks of the inodes that are allocated at its start. -/
structure AllScannable (d : Disk) (r₀ : Repair) : Prop where
  device : OnDevice d r₀
  lt : ∀ i, bit r₀.inodeAlloc i = true → i < r₀.inodes
  one : ∀ i, bit r₀.inodeAlloc i = true → Scannable d r₀ (i + 1)
  apart : ∀ i, bit r₀.inodeAlloc i = true → ∀ j, bit r₀.inodeAlloc j = true → i ≠ j →
    (reached d r₀.geo r₀.gdt (i + 1)).Disjoint (reached d r₀.geo r₀.gdt (j + 1))

/-- In the middle of the scan no inode was missing, and the blocks of the inodes that are left
can still be marked. -/
theorem AllScannable.scannable {order : List Nat} {i : Nat} (h : AllScannable d r₀)
    (hall : ScannedAll d r₀ order r) (hsame : r.missingInodes = r₀.missingInodes) (hi : bit r.inodeAlloc i = true)
    (hnew : bit r.scanned i = false) : Scannable d { r with scanned := setbit r.scanned i } (i + 1) := by
  have halloc : r.inodeAlloc = r₀.inodeAlloc := hall.walked.same hsame
  have hgeo : r.geo = r₀.geo := hall.walked.geometry
  have hgdt : r.gdt = r₀.gdt := hall.walked.gdt
  rw [halloc] at hi
  obtain ⟨hrange, hblock, hfit, hfresh, hgood⟩ := h.one i hi
  refine ⟨?_, ?_, ?_, ⟨?_, ?_, ?_⟩, ?_⟩
  all_goals simp only [hgeo, hgdt, halloc]
  · exact hrange
  · exact hblock
  · exact hfit
  · exact hfresh.lt
  · -- neither marked at the start nor by an inode that was scanned
    intro b hb
    rw [← Bool.not_eq_true, hall.walked.marked.bits]
    rintro (hold | hmem)
    · have hno := hfresh.fresh b hb
      rw [hold] at hno
      cases hno
    · obtain ⟨j, hj, hbj⟩ := mem_flatMap.mp hmem
      have hne : i ≠ j := by
        rintro rfl
        rw [(hall.scanned i).mpr (.inr hj)] at hnew
        cases hnew
      exact h.apart i hi j (halloc ▸ hall.alloc j hj) hne hb hbj
  · exact hfresh.nodup
  · exact hgood

theorem scanNext_finds {i : Nat} {s : Pass} (h : AllScannable d r₀)
    (hs : (∃ order, ScannedAll d r₀ order s.r) ∧ s.r.missingInodes = r₀.missingInodes) (hi : i < r₀.inodes) :
    Finds (scanNext i s) d fun s' =>
      (∃ order, ScannedAll d r₀ order s'.r) ∧ s'.r.missingInodes = r₀.missingInodes := by
  obtain ⟨⟨order, hall⟩, hsame⟩ := hs
  rw [scanNext]
  split
  · exact .pure ⟨⟨order, hall⟩, hsame⟩
  · rename_i hscan
    rw [not_or, Bool.not_eq_true, Bool.not_eq_false] at hscan
    have hinodes : s.r.inodes = r₀.inodes := congrArg Geometry.inodes hall.walked.geometry
    have hd : OnDevice d s.r := Walked.onDevice hall.walked ⟨h.device.size, h.device.blocks⟩
    refine .bind (scanInode_finds ⟨hd.size, hd.blocks⟩ (h.scannable hall hsame hscan.1 hscan.2)) fun r' h' => .pure ?_
    exact ⟨⟨_, hall.next (hinodes ▸ hi) hscan.2 hscan.1 h'.2⟩, h'.1.trans hsame⟩

theorem scanPasses_finds (h : AllScannable d r₀)
    (hr : (∃ order, ScannedAll d r₀ order r) ∧ r.missingInodes = r₀.missingInodes) :
    Finds (scanPasses n r) d fun r' => r'.missingInodes = r₀.missingInodes := by
  induction n generalizing r with
  | zero => exact .pure hr.2
  | succ n ih =>
    have hinodes : r.inodes = r₀.inodes := by
      obtain ⟨⟨order, hall⟩, -⟩ := hr
      exact congrArg Geometry.inodes hall.walked.geometry
    refine .bind (Finds.loop_zero
      (fun _ s => (∃ order, ScannedAll d r₀ order s.r) ∧ s.r.missingInodes = r₀.missingInodes)
      hr fun j hj s hs => scanNext_finds h hs (hinodes ▸ hj)) fun s hs => ?_
    split
    · exact ih hs
    · exact .pure hs.2

theorem scanAll_finds (h : AllScannable d r) : Finds (scanAll r) d fun r' => r'.missingInodes = r.missingInodes :=
  scanPasses_finds h ⟨⟨[], .nil d r⟩, rfl⟩

/-! ## The check -/

theorem reconcileMap_finds {first : Nat} {refs : Buf} (hd : OnDevice d r) (hb : b < r.blocks) :
    Finds (reconcileMap false r b refs first n) d fun _ => True := by
  refine .bind (readBlock_finds hd hb) fun block _ => ?_
  rw [if_neg (by simp)]
  exact .pure trivial

theorem reconcile_finds (hd : OnDevice d r)
    (hmaps : ∀ g < r.groups, blockBitmap r.gdt g < r.blocks ∧ inodeBitmap r.gdt g < r.blocks) :
    Finds (reconcile false r) d fun s => Like r s.r := by
  refine (Finds.loop_zero (fun _ s => Like r s.r ∧ s.r.gdt = r.gdt) ⟨.refl r, rfl⟩ fun j hj s hs => ?_).mono
    fun _ h => h.1
  obtain ⟨hl, hgdt⟩ := hs
  have hd' : OnDevice d s.r := ⟨by rw [hl.sectors]; exact hd.size, by rw [hl.sectors, hl.geometry]; exact hd.blocks⟩
  obtain ⟨hbb, hib⟩ := hmaps j hj
  rw [← hgdt, ← hl.geometry] at hbb hib
  refine .bind (reconcileMap_finds hd' hbb) fun fb _ => .bind (reconcileMap_finds hd' hib) fun fi _ => .pure ?_
  exact ⟨hl.countGroup, (countGroup_check j fb fi s).1.trans hgdt⟩

theorem openFs_finds {sectors : Nat} (hdev : sectors * 512 ≤ d.size) (hsup : supported d.sb)
    (hvalid : validGeometry sectors (geometry d.sb)) (hgroups : validGroups (geometry d.sb))
    (hone : 1 < (geometry d.sb).blocks) : Finds (openFs sectors) d fun _ => True := by
  have hblocks : (geometry d.sb).blocks * spb ≤ sectors := hvalid.2.2.2.2.2.2.2.2.2.2.2
  have hin : 2 + 2 ≤ sectors := by
    simp only [spb] at hblocks
    omega
  refine .bind (.orFail _ (rwRead_succeeds hdev hin)) fun sb hsb => ?_
  obtain rfl : sb = d.sb := hsb
  rw [if_pos hsup]
  rw [if_pos hvalid, if_pos hgroups]
  exact .bind (.orFail _ (readBlock_finds ⟨hdev, hblocks⟩ hone)) fun _ _ => .pure trivial

end Lorica.Proof.Install
