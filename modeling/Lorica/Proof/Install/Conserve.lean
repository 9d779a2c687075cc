import Lorica.Proof.Install.Repair

/-!
# ext2_repair at every point of a run

What is on the disk after any number of operations of `ext2_repair`, with any of them
failing half-way: bits of the bitmaps are only set, and outside the bitmaps, block 1 and the
two sectors of the superblock nothing is written (`Conserved`). Between the first write and
the last the superblock does not say that the file system is valid. A bitmap is written as
it was read, with more bits set, so that it makes no difference which blocks the bitmaps
are as long as they are above block 1 (`IsBitmap.above`).
-/

namespace Lorica.Proof.Install

open Lorica.Impl.Install Disk

variable {d d₁ : Disk} {r : Repair} {b n : Nat} {m : Buf}

/-! ## What is kept -/

/-- A block that holds a bitmap of a group. -/
def IsBitmap (d : Disk) (b : Nat) : Prop :=
  ∃ g < (geometry d.sb).groups, b = blockBitmap (blockAt d 1) g ∨ b = inodeBitmap (blockAt d 1) g

structure Conserved (d d' : Disk) : Prop where
  kept : ∀ b, IsBitmap d b → ∀ k, bit (blockAt d b) k = true → bit (blockAt d' b) k = true
  frame : ∀ i, d'.bytes i ≠ d.bytes i → i / 512 = 2 ∨ i / 512 = 3 ∨ i / bs = 1 ∨ IsBitmap d (i / bs)

theorem Conserved.refl (d : Disk) : Conserved d d := ⟨fun _ _ _ h => h, fun _ h => absurd rfl h⟩

theorem bit_blockAt_overwrite {k : Nat} (hm : bit (blockAt d b) k = true → bit m k = true) :
    bit (blockAt d b) k = true → bit (blockAt (d.overwrite (b * spb * 512) n m) b) k = true := by
  intro h
  rcases blockAt_overwrite_cases b n m (k / 8) with e | e
  · rw [bit_congr e]
    exact hm h
  · rwa [bit_congr e]

variable {off sectors sector count : Nat} {α : Type} {buf : Buf}

theorem blockAt_overwrite_out {b' : Nat} (h : (b' + 1) * spb * 512 ≤ off ∨ off + n ≤ b' * spb * 512) :
    blockAt (d.overwrite off n m) b' = blockAt d b' := by
  refine slice_congr fun i hi hi' => overwrite_out ?_
  simp only [spb] at *
  omega

/-- A bitmap is written, in part or as a whole, with all the bits that it has. -/
theorem Conserved.bitmap (h : Conserved d d₁) (hb : IsBitmap d b)
    (hm : ∀ k, bit (blockAt d₁ b) k = true → bit m k = true) (hn : n ≤ spb * 512) :
    Conserved d (d₁.overwrite (b * spb * 512) n m) := by
  refine ⟨fun b' hb' k hk => ?_, fun i hi => ?_⟩
  · have hk1 := h.kept b' hb' k hk
    by_cases heq : b' = b
    · subst heq
      exact bit_blockAt_overwrite (hm k) hk1
    · rwa [blockAt_overwrite_out]
      simp only [spb] at hn ⊢
      omega
  · by_cases hin : b * spb * 512 ≤ i ∧ i < b * spb * 512 + n
    · have hblock : i / bs = b := by
        simp only [spb, bs] at *
        omega
      exact .inr (.inr (.inr (hblock ▸ hb)))
    · rw [overwrite_out (by omega)] at hi
      exact h.frame i hi

/-- The superblock and block 1 are no bitmaps. -/
theorem Conserved.low (h : Conserved d d₁) (habove : ∀ b, IsBitmap d b → 1 < b)
    (hoff : off = 2 * 512 ∧ n ≤ 2 * 512 ∨ off = 1 * spb * 512 ∧ n ≤ spb * 512) :
    Conserved d (d₁.overwrite off n m) := by
  simp only [spb] at hoff
  refine ⟨fun b hb k hk => ?_, fun i hi => ?_⟩
  · have hlow := habove b hb
    rw [blockAt_overwrite_out]
    · exact h.kept b hb k hk
    · simp only [spb]
      omega
  · by_cases hin : off ≤ i ∧ i < off + n
    · simp only [bs]
      omega
    · rw [overwrite_out (by omega)] at hi
      exact h.frame i hi

/-- The superblock does not say that the file system is valid. -/
def Invalid (d : Disk) : Prop := r16 d.sb 58 &&& 1 = 0

theorem Invalid.overwrite (h : Invalid d) (hoff : 4 * 512 ≤ off) : Invalid (d.overwrite off n m) := by
  have hsb : (d.overwrite off n m).sb = d.sb := slice_congr fun i _ hi => overwrite_out (by omega)
  rwa [Invalid, hsb]

theorem markInvalid_invalid (r : Repair) : Invalid (d.overwrite (2 * 512) (2 * 512) (markInvalid r).sb) := by
  have hflags : r16 (d.overwrite (2 * 512) (2 * 512) (markInvalid r).sb).sb 58 =
      (r16 r.sb 58 &&& 0xfffe) % 2 ^ 16 := by
    rw [r16_congr (superblock_overwrite (by omega)) (superblock_overwrite (by omega))]
    exact r16_w16
  show r16 _ 58 &&& 2 ^ 0 = 0
  rw [hflags, Nat.and_two_pow, Nat.testBit_mod_two_pow, Nat.testBit_and]
  simp

/-! ## The repair -/

/-- At every point of the program the disk is as it was but for what a repair may change, and
where it writes `J` holds. -/
def Holds {α : Type} (J : Disk → Prop) (d : Disk) (p : Rep α) (d₁ : Disk) (Q : α → Disk → Prop) : Prop :=
  Try.WP (Allows true) p d₁ Q (fun _ => Conserved d) fun o d' => Conserved d d' ∧ (o.isWrite = true → J d')

theorem Gets.holds {J : Disk → Prop} {p : Rep α} {P : α → Prop} (h : Gets p d₁ P) (hd : Conserved d d₁) :
    Holds J d p d₁ fun a d' => d' = d₁ ∧ P a := by
  refine Try.WP.weaken h (fun _ _ h => h) (fun _ d' he => he ▸ hd) fun o d' ho => ⟨ho.2 ▸ hd, fun hw => ?_⟩
  rw [ho.1] at hw
  cases hw

theorem writeCompared_holds {J : Disk → Prop} (hJ : J d₁)
    (hd : ∀ k ≤ count * 512, Conserved d (d₁.overwrite (sector * 512) k buf)) :
    Holds J d (writeCompared sectors sector count buf) d₁ fun _ d' =>
      d' = d₁.overwrite (sector * 512) (count * 512) buf := by
  have hd1 : Conserved d d₁ := overwrite_zero (d := d₁) ▸ hd 0 (Nat.zero_le _)
  have hwrite : Holds J d (rwWrite sectors sector count buf) d₁ fun _ d' =>
      d' = d₁.overwrite (sector * 512) (count * 512) buf := by
    rw [rwWrite]
    split
    · exact Try.WP.throw hd1
    refine Try.WP.lift_bind (Q := fun ok d' => Conserved d d' ∧
      (ok = false ∨ d' = d₁.overwrite (sector * 512) (count * 512) buf)) ?_ fun ok d' h => ?_
    · refine Dev.WP.write ⟨hd1, fun _ => hJ⟩ (fun _ => ⟨hd _ (le_refl _), .inr rfl⟩) fun k _ => ⟨hd _ ?_, .inl rfl⟩
      rw [Disk.fit]
      omega
    · cases ok with
      | false => exact Try.WP.throw h.1
      | true => exact Try.WP.pure (h.2.resolve_left Bool.false_ne_true.symm)
  refine Try.WP.bind hwrite fun _ d2 h2 => ?_
  have hd2 : Conserved d d2 := h2 ▸ hd _ (le_refl _)
  refine Try.WP.bind (rwRead_gets.holds hd2) fun _ d3 h3 => ?_
  split
  · exact Try.WP.pure (h3.1.trans h2)
  · exact Try.WP.throw (h3.1 ▸ hd2)

theorem reconcileMap_holds {first : Nat} {refs : Buf} (hb : IsBitmap d b) (hlow : 1 < b) (hd : Conserved d d₁)
    (hinv : Invalid d₁) : Holds Invalid d (reconcileMap true r b refs first n) d₁ fun _ d' =>
    Conserved d d' ∧ Invalid d' := by
  refine Try.WP.bind (readBlock_gets.holds hd) fun block d2 h => ?_
  obtain ⟨rfl, -, rfl⟩ := h
  dsimp only
  split
  · have hmore : ∀ k, bit (blockAt d2 b) k = true → bit (fillBits refs first n 0 ⟨blockAt d2 b, 0, 0⟩).map k = true :=
      fun k hk => ((fillBits_spec refs first n 0 ⟨blockAt d2 b, 0, 0⟩).bits k).mpr (.inl hk)
    refine Try.WP.bind (Try.WP.adapt (writeCompared_holds hinv fun k hk => hd.bitmap hb hmore hk)) fun _ d' h =>
      Try.WP.pure ?_
    subst h
    refine ⟨hd.bitmap hb hmore (le_refl _), hinv.overwrite ?_⟩
    simp only [spb]
    omega
  · exact Try.WP.pure ⟨hd, hinv⟩

theorem reconcile_holds (hmaps : ∀ g < r.groups, IsBitmap d (blockBitmap r.gdt g) ∧ IsBitmap d (inodeBitmap r.gdt g))
    (habove : ∀ b, IsBitmap d b → 1 < b) (hd : Conserved d d₁) (hinv : Invalid d₁) :
    Holds Invalid d (reconcile true r) d₁ fun _ d' => Conserved d d' ∧ Invalid d' := by
  have h := Try.WP.loop (M := machine) (A := Allows true) (E := fun (_ : Option String) => Conserved d)
    (C := fun o d' => Conserved d d' ∧ (Op.isWrite o = true → Invalid d')) (f := reconcileGroup true) (n := r.groups)
    (i := 0) (x := ⟨r, 0, 0⟩) (s := d₁)
    (I := fun _ s d' => (∀ g, blockBitmap s.r.gdt g = blockBitmap r.gdt g ∧
    inodeBitmap s.r.gdt g = inodeBitmap r.gdt g) ∧
      Conserved d d' ∧ Invalid d')
    ⟨fun _ => ⟨rfl, rfl⟩, hd, hinv⟩ fun j _ hj s d2 hs => ?_
  · exact h.mono fun s d' h => h.2
  obtain ⟨hplaces, hd2, hinv2⟩ := hs
  obtain ⟨hbb, hib⟩ := hmaps j (by omega)
  rw [← (hplaces j).1] at hbb
  rw [← (hplaces j).2] at hib
  refine Try.WP.bind (reconcileMap_holds hbb (habove _ hbb) hd2 hinv2) fun fb d3 h3 =>
    Try.WP.bind (reconcileMap_holds hib (habove _ hib) h3.1 h3.2) fun fi d4 h4 => Try.WP.pure ⟨fun g => ?_, h4⟩
  rw [(countGroup_places g).1, (countGroup_places g).2]
  exact hplaces g

theorem repairMaps_holds (hmaps : ∀ g < r.groups, IsBitmap d (blockBitmap r.gdt g) ∧ IsBitmap d (inodeBitmap r.gdt g))
    (habove : ∀ b, IsBitmap d b → 1 < b) (hd : Conserved d d₁) (hinv : Invalid d₁) :
    Holds Invalid d (repairMaps r) d₁ fun _ => Conserved d := by
  refine Try.WP.bind (reconcile_holds (r := { r with missingBlocks := 0, counterMismatches := 0 }) hmaps habove hd hinv)
    fun s d2 h2 => ?_
  have hgdt : ∀ k ≤ spb * 512, Conserved d (d2.overwrite (1 * spb * 512) k (countSuper s).r.gdt) :=
    fun k hk => h2.1.low habove (.inr ⟨rfl, hk⟩)
  refine Try.WP.bind (Try.WP.adapt (writeCompared_holds h2.2 hgdt)) fun _ d3 h3 => ?_
  have hd3 : Conserved d d3 := h3 ▸ hgdt _ (le_refl _)
  have hinv3 : Invalid d3 := h3 ▸ h2.2.overwrite (by decide)
  have hsuper : ∀ k ≤ 2 * 512, Conserved d (d3.overwrite (2 * 512) k (finishSuper (countSuper s)).r.sb) :=
    fun k hk => hd3.low habove (.inl ⟨rfl, hk⟩)
  refine Try.WP.bind (Try.WP.adapt (writeCompared_holds hinv3 hsuper)) fun _ d4 h4 => Try.WP.pure ?_
  exact h4 ▸ hsuper _ (le_refl _)

/-! ## The whole program -/

/-- The bitmaps of the groups after the first lie above it, and a group has two bitmaps. -/
theorem Checked.above {s : Totals} (h : Checked d sectors s)
    (hmaps : 1 < blockBitmap (blockAt d 1) 0 ∧ 1 < inodeBitmap (blockAt d 1) 0) : ∀ b, IsBitmap d b → 1 < b := by
  rintro b ⟨g, hg, hb⟩
  obtain ⟨order, hscan⟩ := h.scan
  have hn := (List.nodup_append.mp hscan.marked.nodup).1
  rw [← h.geometry] at hg
  rw [← h.gdt] at hb hmaps
  have hne := bitmaps_ne hn hg hg
  have hplaced := h.placed g hg
  simp only [Placed, groupEnd, groupStart] at hplaced
  cases g with
  | zero => rcases hb with rfl | rfl <;> omega
  | succ g =>
    have hmul : s.r.bpg ≤ (g + 1) * s.r.bpg := Nat.le_mul_of_pos_left _ (Nat.succ_pos g)
    rcases hb with rfl | rfl <;> omega

theorem Checked.isBitmap {s : Totals} (h : Checked d sectors s) :
    ∀ g < s.r.groups, IsBitmap d (blockBitmap s.r.gdt g) ∧ IsBitmap d (inodeBitmap s.r.gdt g) := by
  intro g hg
  rw [h.gdt]
  rw [h.geometry] at hg
  exact ⟨⟨g, hg, .inl rfl⟩, ⟨g, hg, .inr rfl⟩⟩

/-- The first write of the repair. -/
theorem writeSuper_holds {error : String} (habove : ∀ b, IsBitmap d b → 1 < b) (r : Repair) :
    Holds (fun _ => True) d (writeSuper error (markInvalid r)) d fun _ d' => Conserved d d' ∧ Invalid d' := by
  have hsuper : ∀ k ≤ 2 * 512, Conserved d (d.overwrite (2 * 512) k (markInvalid r).sb) :=
    fun k hk => (Conserved.refl d).low habove (.inl ⟨rfl, hk⟩)
  have hwrite : Holds (fun _ => True) d (writeSuper error (markInvalid r)) d fun _ d' =>
      d' = d.overwrite (2 * 512) (2 * 512) (markInvalid r).sb := Try.WP.adapt (writeCompared_holds trivial hsuper)
  refine Try.WP.mono hwrite fun _ d' h => ?_
  subst h
  exact ⟨hsuper _ (le_refl _), markInvalid_invalid r⟩

/-- `WritesOn`, for programs that can end in an error. -/
def Between {α : Type} (w : Bool) (p : Rep α) (d : Disk) (Q : Bool → α → Disk → Prop) : Prop :=
  Dev.WritesOn (Allows true) Invalid w p.run d fun w => Try.Post (M := machine) (Q w) fun _ _ => True

theorem Between.bind {β : Type} {w : Bool} {p : Rep α} {f : α → Rep β} {Q : Bool → α → Disk → Prop}
    {R : Bool → β → Disk → Prop} (h : Between w p d Q) (hf : ∀ w a d', Q w a d' → Between w (f a) d' R) :
    Between w (p >>= f) d R := by
  refine Dev.WritesOn.bind (p := p.run) h fun w res d' hres => ?_
  cases res with
  | ok a => exact hf w a d' hres
  | error e => exact trivial

theorem Gets.between {w : Bool} {p : Rep α} {P : α → Prop} (h : Gets p d P) :
    Between w p d fun w' a d' => w' = w ∧ d' = d ∧ P a := by
  have hreads : WP (M := machine) (Allows true) p.run d (Try.Post (fun a d' => d' = d ∧ P a) fun _ d' => d' = d)
      fun o _ => o.isWrite = false := Lorica.WP.mono h (fun _ _ h => h) fun _ _ h => h.1
  refine (Dev.WritesOn.of_reads hreads).mono fun w' res d' hres => ?_
  cases res with
  | ok a => exact ⟨hres.1, hres.2⟩
  | error e => exact trivial

/-- The first write, and what is done with its answer. -/
theorem Between.write_bind {len : Nat} {f : Bool → Rep α} {Q : Bool → α → Disk → Prop}
    (h : ∀ c, Between true (f (stepWrite off len buf c d).1) (stepWrite off len buf c d).2 Q) :
    Between false (Try.lift (Dev.write off len buf) >>= f) d Q :=
  ⟨fun hw => absurd hw Bool.false_ne_true, fun c _ => h c⟩

theorem stepWrite_true {len : Nat} {c : Choice} (h : (stepWrite off len buf c d).1 = true) :
    (stepWrite off len buf c d).2 = d.overwrite off len buf := by
  cases c with
  | fail k => cases h
  | ok =>
    rw [stepWrite] at h ⊢
    split at h
    · rename_i hin
      rw [if_pos hin]
    · cases h

theorem rwWrite_between : Between false (rwWrite sectors sector count buf) d fun _ _ d' =>
      d' = d.overwrite (sector * 512) (count * 512) buf := by
  rw [rwWrite]
  split
  · exact trivial
  refine Between.write_bind fun c => ?_
  have hc : (stepWrite (sector * 512) (count * 512) buf c d).1 = true →
      (stepWrite (sector * 512) (count * 512) buf c d).2 =
        d.overwrite (sector * 512) (count * 512) buf := stepWrite_true
  generalize stepWrite (sector * 512) (count * 512) buf c d = x at hc
  obtain ⟨ok, d'⟩ := x
  cases ok with
  | false => exact trivial
  | true => exact hc rfl

theorem writeCompared_between : Between false (writeCompared sectors sector count buf) d fun _ _ d' =>
      d' = d.overwrite (sector * 512) (count * 512) buf := by
  refine Between.bind rwWrite_between fun w _ d₁ h1 => ?_
  refine Between.bind rwRead_gets.between fun w verify d2 h2 => ?_
  split
  · exact h2.2.1.trans h1
  · exact trivial

theorem writeSuper_between {error : String} : Between false (writeSuper error (markInvalid r)) d fun _ _ d' =>
    d' = d.overwrite (2 * 512) (2 * 512) (markInvalid r).sb := by
  refine Dev.WritesOn.bind (p := ExceptT.run (writeCompared _ _ _ _)) writeCompared_between fun w res d' hres => ?_
  cases res with
  | ok a => exact hres
  | error e => exact trivial

section

variable {sectors : Nat} {σ : Nat → Choice}
  (hmaps : 1 < blockBitmap (blockAt d 1) 0 ∧ 1 < inodeBitmap (blockAt d 1) 0)

include hmaps

theorem ext2Repair_holds : Holds (fun _ => True) d (ext2Repair sectors true) d fun _ => Conserved d := by
  refine Try.WP.bind (check_gets.holds (.refl d)) fun s d₁ h => ?_
  obtain ⟨rfl, h⟩ := h
  rw [repairFound]
  split
  · have hrest : Holds (fun _ => True) d₁ (applyRepair s.r) d₁ fun _ => Conserved d₁ := by
      refine Try.WP.bind (writeSuper_holds (h.above hmaps) s.r) fun _ d2 h2 => ?_
      refine Try.WP.weaken (repairMaps_holds (r := markInvalid s.r) h.isBitmap (h.above hmaps) h2.1 h2.2)
        (fun _ _ h => h) (fun _ _ h => h) fun _ _ h => ⟨h.1, fun _ => trivial⟩
    exact Try.WP.bind hrest fun _ d' h' => Try.WP.pure h'
  · exact Try.WP.pure (.refl d₁)

theorem ext2Repair_between : Between false (ext2Repair sectors true) d fun _ _ _ => True := by
  refine Between.bind check_gets.between fun w s d₁ h => ?_
  obtain ⟨rfl, rfl, h⟩ := h
  rw [repairFound]
  split
  · have hrest : Between false (applyRepair s.r) d₁ fun _ _ _ => True := by
      refine Between.bind writeSuper_between fun w _ d2 h2 => ?_
      subst h2
      have hd := (Conserved.refl d₁).low (m := (markInvalid s.r).sb) (h.above hmaps) (.inl ⟨rfl, le_refl _⟩)
      have hmaps := repairMaps_holds (r := markInvalid s.r) h.isBitmap (h.above hmaps) hd (markInvalid_invalid s.r)
      refine (Dev.WritesOn.of_wp (Lorica.WP.mono hmaps (fun _ _ h => h) fun _ _ h => h.2)).mono fun w res d' _ => ?_
      cases res <;> exact trivial
    exact Between.bind hrest fun _ _ _ _ => trivial
  · exact trivial

end

/-- `ext2_repair` at every point of a run, whatever fails: after the first `n` operations the
bits of the bitmaps are still set and only bitmaps, block 1 and the superblock were changed,
and if there was a write and there will be one the file system is not marked as valid. In
check mode, and if the check fails, there is no write. -/
theorem repair_conservative {sectors : Nat} {σ : Nat → Choice}
    (hmaps : 1 < blockBitmap (blockAt d 1) 0 ∧ 1 < inodeBitmap (blockAt d 1) 0) :
    (∀ n, Conserved d ((ext2Repair sectors true).run.after σ n d)) ∧
    (∀ n, (∃ o ∈ ((ext2Repair sectors true).run.trace σ d).take n, Op.isWrite o = true) →
      (∃ o ∈ ((ext2Repair sectors true).run.trace σ d).drop n, Op.isWrite o = true) →
      Invalid ((ext2Repair sectors true).run.after σ n d)) ∧
    (∀ o ∈ (ext2Repair sectors false).run.trace σ d, Op.isWrite o = false) ∧
    (∀ e, ((check sectors).run.exec σ d).1 = .error e →
      ∀ o ∈ (ext2Repair sectors true).run.trace σ d, Op.isWrite o = false) := by
  refine ⟨fun n => ?_, fun n hbefore hafter => ?_, ?_, fun e he => ?_⟩
  · have hall : WP (M := machine) (Allows true) (ext2Repair sectors true).run d
      (fun _ => Conserved d) fun _ => Conserved d := by
      refine Lorica.WP.mono (ext2Repair_holds hmaps) (fun res d' hres => ?_) fun _ _ h => h.1
      cases res <;> exact hres
    exact hall.after (allows_all σ) n
  · exact (ext2Repair_between hmaps).between (allows_all σ) hbefore hafter
  · have hreads : Gets (ext2Repair sectors false) d fun _ => True := by
      refine check_gets.bind fun s _ => ?_
      exact .pure trivial
    have hno : WP (M := machine) (Allows true) (ext2Repair sectors false).run d (fun _ _ => True)
        fun o _ => o.isWrite = false := Lorica.WP.mono hreads (fun _ _ _ => trivial) fun _ _ h => h.1
    exact WP.trace hno (allows_all σ)
  · have htrace : (ext2Repair sectors true).run.trace σ d = (check sectors).run.trace σ d := by
      refine (Prog.trace_bind (check sectors).run _ σ d).trans ?_
      rw [he]
      exact List.append_nil _
    rw [htrace]
    exact check_reads

/-- After ten operations on the small file system there was the first write, and there will be
more. -/
theorem repair_conservative_sample :
    (∃ o ∈ ((ext2Repair 64 true).run.trace (fun _ => .ok) (sampleFs 4096)).take 10, Op.isWrite o = true) ∧
    (∃ o ∈ ((ext2Repair 64 true).run.trace (fun _ => .ok) (sampleFs 4096)).drop 10, Op.isWrite o = true) ∧
    Conserved (sampleFs 4096) ((ext2Repair 64 true).run.after (fun _ => .ok) 10 (sampleFs 4096)) ∧
    Invalid ((ext2Repair 64 true).run.after (fun _ => .ok) 10 (sampleFs 4096)) := by
  have hbefore := List.any_eq_true.mp
      (show (((ext2Repair 64 true).run.trace (fun _ => .ok) (sampleFs 4096)).take 10).any
    Op.isWrite = true by decide +kernel)
  have hafter := List.any_eq_true.mp (show (((ext2Repair 64 true).run.trace (fun _ => .ok) (sampleFs 4096)).drop 10).any
    Op.isWrite = true by decide +kernel)
  obtain ⟨hkept, hinvalid, -, -⟩ :
      (∀ n, Conserved (sampleFs 4096) ((ext2Repair 64 true).run.after (fun _ => .ok) n (sampleFs 4096))) ∧ _ ∧ _ ∧ _ :=
    repair_conservative (by decide +kernel)
  exact ⟨hbefore, hafter, hkept 10, hinvalid 10 hbefore hafter⟩

end Lorica.Proof.Install
