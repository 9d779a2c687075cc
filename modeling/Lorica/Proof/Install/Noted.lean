import Lorica.Impl.Install.NotedGrow

/-!
# The noted programs are the programs

Each function of `NotedRepair` and `NotedGrow`, without its notes, is the function of `Ext2Repair` and
`Ext2Grow` (`erase_ext2Repair`, `erase_ext2Grow`). The loops over bits, which are functions on maps
there, are programs with a note in each round here (`erase_copyBits`, `erase_fillBits`, `erase_clearBits`).
-/

namespace Lorica.Proof.Install

open Lorica.Impl.Install
open Try (erase erase_bind erase_loop)

variable {α β : Type}

theorem rep_pure_bind (a : α) (f : α → Rep β) : (Pure.pure a >>= f) = f a := rfl

@[simp] theorem erase_fail (s : String) : erase (Noted.fail s : Noted.Rep α) = fail s := rfl

@[simp] theorem erase_orFail (s : String) (p : Noted.Rep α) : erase (Noted.orFail s p) = orFail s (erase p) :=
  Try.erase_adapt _ p

@[simp] theorem erase_touch (size o n : Nat) : erase (Noted.touch size o n) = Pure.pure () := rfl

@[simp] theorem erase_r16 (size : Nat) (p : Buf) (o : Nat) : erase (Noted.r16 size p o) = Pure.pure (r16 p o) := rfl

@[simp] theorem erase_r32 (size : Nat) (p : Buf) (o : Nat) : erase (Noted.r32 size p o) = Pure.pure (r32 p o) := rfl

@[simp] theorem erase_bit (size : Nat) (m : Buf) (n : Nat) : erase (Noted.bit size m n) = Pure.pure (bit m n) := rfl

@[simp] theorem erase_setbit (size : Nat) (m : Buf) (n : Nat) : erase (Noted.setbit size m n) =
    Pure.pure (setbit m n) :=
  rfl

@[simp] theorem erase_add32 (a b : Nat) : erase (Noted.add32 a b) = Pure.pure (a + b) := rfl

@[simp] theorem erase_mul32 (a b : Nat) : erase (Noted.mul32 a b) = Pure.pure (a * b) := rfl

@[simp] theorem erase_sub32 (a b : Nat) : erase (Noted.sub32 a b) = Pure.pure (a - b) := rfl

@[simp] theorem erase_rwRead (size sectors sector count : Nat) :
    erase (Noted.rwRead size sectors sector count) = rwRead sectors sector count := by
  unfold Noted.rwRead rwRead
  rw [Try.erase_ite, erase_bind, erase_bind, erase_touch, rep_pure_bind]
  refine congrArg (ite _ _) (bind_congr fun r => ?_)
  cases r <;> rfl

@[simp] theorem erase_rwWrite (size sectors sector count : Nat) (buf : Buf) :
    erase (Noted.rwWrite size sectors sector count buf) = rwWrite sectors sector count buf := by
  unfold Noted.rwWrite rwWrite
  rw [Try.erase_ite, erase_bind, erase_bind, erase_touch, rep_pure_bind]
  refine congrArg (ite _ _) (bind_congr fun r => ?_)
  cases r <;> rfl

@[simp] theorem erase_readBlock (r : Repair) (b : Nat) : erase (Noted.readBlock r b) = readBlock r b := by
  simp [Noted.readBlock, readBlock, rep_pure_bind]

@[simp] theorem erase_writeCompared (size sectors sector count : Nat) (buf : Buf) :
    erase (Noted.writeCompared size sectors sector count buf) = writeCompared sectors sector count buf := by
  simp [Noted.writeCompared, writeCompared]

@[simp] theorem erase_writeBlock (r : Repair) (b : Nat) (buf : Buf) :
    erase (Noted.writeBlock r b buf) = writeBlock r b buf := by
  simp [Noted.writeBlock, writeBlock, rep_pure_bind]

@[simp] theorem erase_markBlock (b : Nat) (r : Repair) : erase (Noted.markBlock b r) = markBlock b r := by
  simp [Noted.markBlock, markBlock, rep_pure_bind]

@[simp] theorem erase_groupStart (r : Geometry) (g : Nat) : erase (Noted.groupStart r g) =
    Pure.pure (groupStart r g) := rfl

@[simp] theorem erase_groupEnd (r : Geometry) (g : Nat) : erase (Noted.groupEnd r g) = Pure.pure (groupEnd r g) := rfl

theorem erase_markBlocks (n i : Nat) (r : Repair) : erase (Try.loop Noted.markBlock n i r) = Try.loop markBlock n i r :=
  erase_loop erase_markBlock n i r

@[simp] theorem erase_markGroup (g : Nat) (r : Repair) : erase (Noted.markGroup g r) = markGroup g r := by
  have htable : ∀ (n i : Nat) (r : Repair), erase (Try.loop (fun b r => do
      Try.note (.word b 32)
      Noted.markBlock b r) n i r) = Try.loop markBlock n i r := fun n i r =>
    erase_loop (fun b r => by simp [rep_pure_bind]) n i r
  unfold Noted.markGroup markGroup
  simp only [erase_bind, erase_groupEnd, erase_r32, erase_sub32, Try.erase_ite, erase_fail,
    rep_pure_bind, erase_markBlocks, erase_markBlock, htable, ← ite_or, or_assoc]
  rfl

theorem erase_markMetadata (r : Repair) : erase (Noted.markMetadata r) = markMetadata r :=
  erase_loop erase_markGroup r.groups 0 r

@[simp] theorem erase_readInode (ino : Nat) (r : Repair) : erase (Noted.readInode ino r) = readInode ino r := by
  simp only [Noted.readInode, Try.erase_ite, erase_fail, erase_bind, erase_r32, erase_mul32,
    erase_add32, erase_readBlock, erase_touch, Try.erase_pure, rep_pure_bind]
  rfl

@[simp] theorem erase_allocInode (ino : Nat) (r : Repair) : erase (Noted.allocInode ino r) = allocInode ino r := by
  simp [Noted.allocInode, allocInode, rep_pure_bind]

@[simp] theorem erase_dirEntry (ino : Nat) (r : Repair) : erase (Noted.dirEntry ino r) = dirEntry ino r := by
  simp [Noted.dirEntry, dirEntry, rep_pure_bind]

@[simp] theorem erase_parseDirBlock (n off : Nat) (r : Repair) :
    erase (Noted.parseDirBlock n off r) = parseDirBlock n off r := by
  induction n generalizing off r with
  | zero => simp [Noted.parseDirBlock, parseDirBlock, rep_pure_bind]
  | succ n ih => simp [Noted.parseDirBlock, parseDirBlock, rep_pure_bind, ih]

@[simp] theorem erase_dataBlock (isDir : Bool) (b : Nat) (s : Walk) :
    erase (Noted.dataBlock isDir b s) = dataBlock isDir b s := by
  simp [Noted.dataBlock, dataBlock]

@[simp] theorem erase_indirect (isDir : Bool) (depth b : Nat) (s : Walk) :
    erase (Noted.indirect isDir depth b s) = indirect isDir depth b s := by
  induction depth generalizing b s with
  | zero => simp [Noted.indirect, indirect]
  | succ depth ih =>
    simp only [Noted.indirect, indirect, Try.erase_ite, erase_bind, erase_markBlock,
      erase_readBlock, Try.erase_pure, Try.erase_throw]
    have hround : ∀ (pointers : Buf) (i : Nat) (s : Walk), erase (do
        let p ← Noted.r32 bs pointers (i * 4)
        if p = 0 then Pure.pure s
        else if depth = 0 then Noted.dataBlock isDir p s
        else Noted.indirect isDir depth p s) =
        if r32 pointers (i * 4) = 0 then Pure.pure s
        else if depth = 0 then dataBlock isDir (r32 pointers (i * 4)) s
        else indirect isDir depth (r32 pointers (i * 4)) s := fun pointers i s => by simp [rep_pure_bind, ih]
    simp only [erase_loop (hround _)]

@[simp] theorem erase_scanBlocks (isDir : Bool) (inode : Buf) (s : Walk) :
    erase (Noted.scanBlocks isDir inode s) = scanBlocks isDir inode s := by
  have hdirect : ∀ (n i : Nat) (s : Walk), erase (Try.loop (fun i s => do
      let b ← Noted.r32 Noted.inodeBytes inode (40 + i * 4)
      Noted.dataBlock isDir b s) n i s) = Try.loop (fun i s => dataBlock isDir (r32 inode (40 + i * 4)) s) n i s :=
    fun n i s => erase_loop (fun i s => by simp [rep_pure_bind]) n i s
  simp [Noted.scanBlocks, scanBlocks, rep_pure_bind, hdirect]

@[simp] theorem erase_countDirectory (ino : Nat) (r : Repair) :
    erase (Noted.countDirectory ino r) = Pure.pure (countDirectory ino r) := rfl

@[simp] theorem erase_scanInode (ino : Nat) (r : Repair) : erase (Noted.scanInode ino r) = scanInode ino r := by
  simp [Noted.scanInode, scanInode, rep_pure_bind]

theorem erase_copyBits (size : Nat) (block : Buf) (first n i : Nat) (m : Buf) :
    erase (Try.loop (Noted.copyBit size block first) n i m) = Pure.pure (copyBits block first n i m) := by
  induction n generalizing i m with
  | zero => rfl
  | succ n ih =>
    rw [Try.loop, copyBits, erase_bind]
    have hround : erase (Noted.copyBit size block first i m) =
        Pure.pure (if bit block i = true then setbit m (first + i) else m) := by
      unfold Noted.copyBit
      simp only [erase_bind, erase_bit, rep_pure_bind, Try.erase_ite, erase_add32, erase_setbit]
      exact (apply_ite _ _ _ _).symm
    rw [hround, rep_pure_bind, ih]

@[simp] theorem erase_loadInodeMap (g : Nat) (r : Repair) : erase (Noted.loadInodeMap g r) = loadInodeMap g r := by
  simp [Noted.loadInodeMap, loadInodeMap, rep_pure_bind, erase_copyBits, groupInodes, inodeBitmap]

theorem erase_loadInodeMaps (r : Repair) : erase (Noted.loadInodeMaps r) = loadInodeMaps r :=
  erase_loop erase_loadInodeMap r.groups 0 r

@[simp] theorem erase_scanNext (i : Nat) (s : Pass) : erase (Noted.scanNext i s) = scanNext i s := by
  simp [Noted.scanNext, scanNext, rep_pure_bind]

theorem erase_scanPasses (n : Nat) (r : Repair) : erase (Noted.scanPasses n r) = scanPasses n r := by
  induction n generalizing r with
  | zero => rfl
  | succ n ih => simp [Noted.scanPasses, scanPasses, erase_loop erase_scanNext, ih]

theorem erase_fillBits (size : Nat) (refs : Buf) (first n i : Nat) (f : Fill) :
    erase (Try.loop (Noted.fillRound size refs first) n i f) = Pure.pure (fillBits refs first n i f) := by
  induction n generalizing i f with
  | zero => rfl
  | succ n ih =>
    rw [Try.loop, fillBits, erase_bind]
    have hround : erase (Noted.fillRound size refs first i f) =
        Pure.pure (countBit i (fillBit refs first i f)) := rfl
    rw [hround, rep_pure_bind, ih]

@[simp] theorem erase_reconcileMap (repair : Bool) (r : Repair) (b size : Nat) (refs : Buf) (first n : Nat) :
    erase (Noted.reconcileMap repair r b size refs first n) = reconcileMap repair r b refs first n := by
  simp [Noted.reconcileMap, reconcileMap, rep_pure_bind, erase_fillBits]

@[simp] theorem erase_countGroup (repair : Bool) (g : Nat) (fb fi : Fill) (s : Totals) :
    erase (Noted.countGroup repair g fb fi s) = Pure.pure (countGroup repair g fb fi s) := rfl

@[simp] theorem erase_reconcileGroup (repair : Bool) (g : Nat) (s : Totals) :
    erase (Noted.reconcileGroup repair g s) = reconcileGroup repair g s := by
  simp [Noted.reconcileGroup, reconcileGroup, rep_pure_bind, groupInodes, inodeBitmap, blockBitmap]

@[simp] theorem erase_reconcile (repair : Bool) (r : Repair) : erase (Noted.reconcile repair r) = reconcile repair r :=
  erase_loop (erase_reconcileGroup repair) r.groups 0 _

@[simp] theorem erase_openFs (sectors : Nat) : erase (Noted.openFs sectors) = openFs sectors := by
  have hif : ∀ (r : Geometry) (p q : Rep Repair), (if 0 < r.groups ∧ r.groups ≤ maxGroups then
      if validGroups r then p else q else q) = if validGroups r then p else q := by
    intro r p q
    by_cases h : validGroups r
    · rw [if_pos ⟨h.1, h.2.1⟩]
    · rw [if_neg h, ite_self]
  simp [Noted.openFs, Noted.openGeometry, openFs, rep_pure_bind, hif]

@[simp] theorem erase_countSuper (s : Totals) : erase (Noted.countSuper s) = Pure.pure (countSuper s) := rfl

@[simp] theorem erase_check (sectors : Nat) : erase (Noted.check sectors) = check sectors := by
  simp [Noted.check, check, erase_markMetadata, erase_loadInodeMaps, Noted.scanAll, scanAll, erase_scanPasses]

@[simp] theorem erase_writeSuper (error : String) (r : Repair) : erase (Noted.writeSuper error r) =
    writeSuper error r := by
  simp [Noted.writeSuper, writeSuper]

@[simp] theorem erase_markInvalid (r : Repair) : erase (Noted.markInvalid r) = Pure.pure (markInvalid r) := rfl

@[simp] theorem erase_finishSuper (s : Totals) : erase (Noted.finishSuper s) = Pure.pure (finishSuper s) := rfl

@[simp] theorem erase_applyRepair (r : Repair) : erase (Noted.applyRepair r) = applyRepair r := by
  simp [Noted.applyRepair, applyRepair, Noted.repairMaps, repairMaps, rep_pure_bind]

/-- Without its notes, this is `ext2_repair` as it is modelled. -/
theorem erase_ext2Repair (sectors : Nat) (repair : Bool) :
    erase (Noted.ext2Repair sectors repair) = ext2Repair sectors repair := by
  simp [Noted.ext2Repair, ext2Repair, Noted.repairFound, repairFound]

theorem erase_repairReport (sectors : Nat) (repair : Bool) :
    erase (Noted.repairReport sectors repair) = ext2Repair sectors repair >>= fun res => Pure.pure (report res) := by
  rw [Noted.repairReport, erase_bind, erase_ext2Repair]
  rfl

/-! ## `ext2_grow` -/

@[simp] theorem erase_growRead (size sector count : Nat) :
    erase (Noted.growRead size sector count) = growRead sector count := by
  unfold Noted.growRead growRead
  rw [erase_bind, erase_bind, erase_touch, rep_pure_bind]
  refine bind_congr fun r => ?_
  cases r <;> rfl

@[simp] theorem erase_growReadBlock (block : Nat) : erase (Noted.growReadBlock block) = growReadBlock block :=
  erase_growRead ..

@[simp] theorem erase_growWrite (size sector count : Nat) (buf : Buf) :
    erase (Noted.growWrite size sector count buf) = growWrite sector count buf := by
  unfold Noted.growWrite growWrite
  rw [erase_bind, erase_bind, erase_touch, rep_pure_bind]
  refine bind_congr fun r => ?_
  cases r <;> rfl

@[simp] theorem erase_writeChecked (size sector count : Nat) (buf : Buf) :
    erase (Noted.writeChecked size sector count buf) = writeChecked sector count buf := by
  unfold Noted.writeChecked writeChecked
  simp only [Try.erase_ite, erase_bind, erase_growWrite, erase_growRead, Try.erase_pure]
  rfl

@[simp] theorem erase_growWriteBlock (block : Nat) (buf : Buf) :
    erase (Noted.growWriteBlock block buf) = growWriteBlock block buf := erase_writeChecked ..

@[simp] theorem erase_zeroBlocks (first count : Nat) : erase (Noted.zeroBlocks first count) = zeroBlocks first count :=
  erase_loop (fun _ _ => erase_writeChecked ..) _ 0 ()

theorem erase_clearBits (n first : Nat) (map : Buf) :
    erase (Try.loop Noted.clearbit n first map) = Pure.pure (clearBits n first map) := by
  induction n generalizing first map with
  | zero => rfl
  | succ n ih =>
    have hround : erase (Noted.clearbit first map) = Pure.pure (clearbit map first) := rfl
    rw [Try.loop, clearBits, erase_bind, hround, rep_pure_bind, ih]

@[simp] theorem erase_bitmapClearRange (map : Buf) (first last : Nat) :
    erase (Noted.bitmapClearRange map first last) = Pure.pure (bitmapClearRange map first last) := erase_clearBits ..

@[simp] theorem erase_bgdSet (gdt : Buf) (g bb ib it fb fi : Nat) :
    erase (Noted.bgdSet gdt g bb ib it fb fi) = Pure.pure (bgdSet gdt g bb ib it fb fi) := rfl

@[simp] theorem erase_growGroup0 (sb : Buf) (p : Plan) (gdt : Buf) :
    erase (Noted.growGroup0 sb p gdt) = growGroup0 sb p gdt := by
  simp [Noted.growGroup0, growGroup0, rep_pure_bind]

@[simp] theorem erase_growGroup (sb : Buf) (p : Plan) (g : Nat) (s : Grow) :
    erase (Noted.growGroup sb p g s) = growGroup sb p g s := by
  simp [Noted.growGroup, growGroup, addGroup, rep_pure_bind]

@[simp] theorem erase_growSuper (sb : Buf) (p : Plan) (free : Nat) :
    erase (Noted.growSuper sb p free) = Pure.pure (growSuper sb p free) := rfl

theorem erase_backupRefs (sb : Buf) (r n g idx : Nat) (refs : Buf) :
    ∃ m, erase (Try.loop (Noted.backupRef sb r) n g (refs, idx)) = Pure.pure (backupRefs sb r n g idx refs, m) := by
  induction n generalizing g idx refs with
  | zero => exact ⟨idx, rfl⟩
  | succ n ih =>
    rw [Try.loop, erase_bind, backupRefs, Noted.backupRef]
    split
    · exact ih (g + 1) (idx + 1) _
    · exact ih (g + 1) idx refs

@[simp] theorem erase_growReserved (sb : Buf) (p : Plan) (dind : Buf) (r : Nat) (u : Unit) :
    erase (Noted.growReserved sb p dind r u) = growReserved sb p dind r u := by
  obtain ⟨m, hrefs⟩ := erase_backupRefs sb r (p.groups - 1) 1 0 fun _ => 0
  simp [Noted.growReserved, growReserved, rep_pure_bind, hrefs]

@[simp] theorem erase_growResizeInode (sb : Buf) (p : Plan) (s : Grow) :
    erase (Noted.growResizeInode sb p s) = growResizeInode sb p s := by
  simp [Noted.growResizeInode, growResizeInode, rep_pure_bind, erase_loop (erase_growReserved sb p _)]

@[simp] theorem erase_growBackup (sb sb1 gdt : Buf) (g : Nat) (u : Unit) :
    erase (Noted.growBackup sb sb1 gdt g u) = growBackup sb sb1 gdt g u := by
  have hzero : ∀ (start n i : Nat) (u : Unit),
      erase (Try.loop (fun r _ => Noted.orFail "cannot write ext2 reserved GDT backup"
        (Noted.zeroBlocks (start + 2 + r) 1)) n i u) =
        Try.loop (fun r _ => orFail "cannot write ext2 reserved GDT backup" (zeroBlocks (start + 2 + r) 1)) n i u :=
    fun start n i u => erase_loop (fun r _ => by simp) n i u
  simp [Noted.growBackup, growBackup, rep_pure_bind, hzero]

theorem rep_bind_assoc {γ : Type} (p : Rep α) (f : α → Rep β) (g : β → Rep γ) :
    (p >>= f) >>= g = p >>= fun a => f a >>= g := by
  refine (Prog.bind_assoc p.run _ _).trans (congrArg (p.run >>= ·) (funext fun r => ?_))
  cases r <;> rfl

theorem erase_growTo (sb : Buf) (p : Plan) :
    (orFail "cannot read ext2 group descriptors" (growReadBlock 1) >>= fun gdt => erase (Noted.growTo sb p gdt)) =
      growTo sb p := by
  simp only [Noted.growTo, growTo, growBody, erase_bind, erase_growGroup0,
    erase_loop (erase_growGroup sb p), erase_growSuper,
    erase_growResizeInode, erase_loop (erase_growBackup sb _ _), erase_orFail, erase_growWriteBlock, erase_writeChecked,
    Try.erase_pure, rep_bind_assoc, rep_pure_bind]

theorem erase_growPlan (targetSectors : Nat) (sb : Buf) (f : Option Plan → Rep Nat)
    (hnone : f none = Pure.pure (r32 sb 4 * spb)) (hsome : ∀ p, f (some p) = growTo sb p) :
    erase (Noted.growPlan targetSectors sb) >>= f = growFs targetSectors sb := by
  unfold Noted.growPlan growFs
  simp only [erase_bind, erase_touch, rep_pure_bind, Try.erase_ite, erase_fail, Try.erase_pure, ite_or]
  split
  · rfl
  split
  · rfl
  split
  · rfl
  split
  · exact hnone
  split
  · rfl
  split
  · rfl
  · exact hsome _

/-- Without its notes, this is `ext2_grow` as it is modelled. -/
theorem erase_ext2Grow (targetSectors : Nat) : erase (Noted.ext2Grow targetSectors) = ext2Grow targetSectors := by
  unfold Noted.ext2Grow ext2Grow
  simp only [Try.erase_ite, erase_bind, erase_orFail, erase_growRead]
  refine congrArg (ite _ _) (bind_congr fun sb => ?_)
  rw [Noted.growFs, erase_bind]
  refine erase_growPlan targetSectors sb _ rfl fun p => ?_
  rw [← erase_growTo]
  simp

end Lorica.Proof.Install
