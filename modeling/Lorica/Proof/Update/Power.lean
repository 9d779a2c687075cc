import Lorica.Proof.Update.Blocks
import Lorica.Proof.Update.Slots

/-!
# lorica-update: power loss

A run copies the current slot to the old one before it writes the current one, so that
what was in the current slot at its start is in one of the two at every moment
(`updateKernel_wp`). If each run starts with a whole image in the current slot, an image
survives any sequence of runs, cut short anywhere (`update_survives`). But a run does not
look at what it copies: after a run that was cut short while it wrote the current slot, the
next one copies half of an image over the old slot (`update_survives_not`).
-/

namespace Lorica.Proof.Update

open Lorica.Impl.Update Disk List

variable {fs : Fat16} {d d' : Disk} {current old f : FatFile} {staged : Buf} {faults : Bool} {cs : List Nat}

/-! ## What is read to find the slots -/

section

variable {R : Nat → Prop}

variable {name : Bytes} {c : Nat}

theorem within_dirBlocks {off : Nat → Nat} {n i : Nat}
    (h : ∀ j, i ≤ j → j < i + n → ∀ x, off j ≤ x → x < off j + 512 → R x) :
    Dev.Within R (dirBlocks name off n i) d := by
  induction n generalizing i with
  | zero => trivial
  | succ n ih =>
    refine .bind (.read fun x hx hx' => h i (le_refl i) (by omega) x hx hx') ?_
    split
    · trivial
    split
    · trivial
    · exact ih fun j hj hj' => h j (by omega) (by omega)

/-- What lies before the data area is in `R`. -/
def Head (fs : Fat16) (R : Nat → Prop) : Prop := ∀ x < espOffset + fs.dataSector * 512, R x

theorem within_fatNext (hs : Sound fs) (hf : FullFat fs) (hR : Head fs R) (hc : inRange fs c = true) :
    Dev.Within R (fatNext fs c) d := by
  have hlt := entryOff_lt hs hf hc
  refine .bind (.read fun x _ hx => hR x (by omega)) ?_
  split <;> trivial

theorem within_markLoop (hs : Sound fs) (hf : FullFat fs) (hR : Head fs R) {n : Nat} {used : List Nat} :
    Dev.Within R (markLoop fs n c used) d := by
  induction n generalizing c used with
  | zero => trivial
  | succ n ih =>
    rw [markLoop]
    split
    · trivial
    rename_i hbad
    rw [not_or, Bool.not_eq_false] at hbad
    split
    · trivial
    refine .bind (within_fatNext hs hf hR hbad.1) ?_
    split
    · trivial
    split
    · trivial
    · exact ih

theorem within_slotsApart (hs : Sound fs) (hf : FullFat fs) (hR : Head fs R) :
    Dev.Within R (slotsApart fs current old) d := by
  refine .bind (within_markLoop hs hf hR) ?_
  split
  · trivial
  refine .bind (within_markLoop hs hf hR) ?_
  split <;> trivial

/-- The clusters of the directory that starts at `c` are in `R`. -/
def DirIn (fs : Fat16) (d : Disk) (R : Nat → Prop) (c : Nat) : Prop :=
  ∀ n, (∀ x ∈ chain fs d n c, inRange fs x = true) → ∀ x ∈ chain fs d n c, ∀ i, InCluster fs x i → R i

theorem DirIn.head (h : DirIn fs d R c) (hc : inRange fs c = true) {i : Nat} (hi : InCluster fs c i) : R i :=
  h 1 (forall_mem_singleton.mpr hc) c mem_cons_self i hi

theorem DirIn.tail (h : DirIn fs d R c) (hc : inRange fs c = true) : DirIn fs d R (fatEntry fs d c) :=
  fun n hn x hx => h (n + 1) (forall_mem_cons.mpr ⟨hc, hn⟩) x (mem_cons_of_mem _ hx)

theorem within_cluster (hc : inRange fs c = true) (h : DirIn fs d R c) :
    Dev.Within R (dirBlocks name (fun i => clusterOff fs c + i * 512) fs.sectorsPerCluster 0) d := by
  refine within_dirBlocks fun j _ hj x hx hx' => h.head hc ⟨by omega, ?_⟩
  rw [clusterBytes]
  omega

theorem within_dirClusters (hs : Sound fs) (hf : FullFat fs) (he : HasEsp d) (hR : Head fs R)
    {left : Nat} (hc : inRange fs c = true) (h : DirIn fs d R c) : Dev.Within R (dirClusters fs name left c) d := by
  induction left generalizing c with
  | zero =>
    rw [dirClusters]
    refine .bind (within_cluster hc h) ?_
    split <;> trivial
  | succ left ih =>
    rw [dirClusters]
    refine .bind (within_cluster hc h) ?_
    split
    · trivial
    · trivial
    refine .bind (within_fatNext hs hf hR hc) ?_
    rw [fatNext_value hs hf he hc]
    dsimp only
    split
    · trivial
    split
    · trivial
    · rename_i hnext
      exact ih (Bool.not_eq_false _ ▸ hnext) (h.tail hc)

theorem within_dirFind (hs : Sound fs) (hf : FullFat fs) (he : HasEsp d) (hR : Head fs R) {dir : Nat}
    (h : DirIn fs d R dir) : Dev.Within R (dirFind fs dir name) d := by
  rw [dirFind]
  split
  · refine .bind (within_dirBlocks fun j _ hj x _ hx => hR x ?_) ?_
    · have hroot := hs.root
      rw [sectorOff, hs.bps] at hx
      omega
    · split <;> trivial
  split
  · trivial
  · rename_i hdir
    exact within_dirClusters hs hf he hR (Bool.not_eq_false _ ▸ hdir) h

/-- There is no cluster 0; it stands for the root directory. -/
theorem dirIn_zero : DirIn fs d R 0 := fun n hn x hx => by
  cases n with
  | zero => cases hx
  | succ n =>
    have := (inRange_iff.mp (hn 0 mem_cons_self)).1
    omega

end

/-! ## The layout is kept -/

/-- An ESP with its two slots: the FAT has an entry for each cluster, and the slots share no
cluster with the directory that they are in. -/
structure Layout (fs : Fat16) (d : Disk) (current old : FatFile) : Prop where
  esp : HasEsp d
  opened : Dev.value fatOpen d = some fs
  full : (fs.clusterCount + 2) * 2 ≤ fatSectors d * 512
  found : Dev.value (findSlots fs) d = some (current, old)
  boot : ∀ boot, Dev.value (dirFind fs 0 bootName) d = some (some boot) →
    ∀ n, (∀ x ∈ chain fs d n boot.firstCluster, inRange fs x = true) →
      ∀ x ∈ chain fs d n boot.firstCluster, x ∉ clusters fs d current ++ clusters fs d old

namespace Layout

section

variable (h : Layout fs d current old)

include h

theorem sound : Sound fs := (fatOpen_value h.esp h.opened).1

theorem fullFat : FullFat fs :=
  fullFat_of_sectors h.sound (fatOpen_value h.esp h.opened).2 h.full

theorem slots : Slots fs d current old := findSlots_value h.sound h.fullFat h.esp h.found

theorem range : ∀ c ∈ clusters fs d current ++ clusters fs d old, inRange fs c = true :=
  forall_mem_append.mpr ⟨h.slots.properCurrent.range, h.slots.properOld.range⟩

end

end Layout

/-- The byte `i` is in none of the clusters. -/
def Outside (fs : Fat16) (cs : List Nat) (i : Nat) : Prop := ∀ c ∈ cs, ¬ InCluster fs c i

theorem head_outside (hs : Sound fs) (hr : ∀ c ∈ cs, inRange fs c = true) : Head fs (Outside fs cs) :=
  fun x hx c hc hin => absurd (hin.ge hs (hr c hc)) (by omega)

theorem dirIn_outside (hs : Sound fs) (hr : ∀ c ∈ cs, inRange fs c = true) {c : Nat}
    (h : ∀ n, (∀ x ∈ chain fs d n c, inRange fs x = true) → ∀ x ∈ chain fs d n c, x ∉ cs) :
    DirIn fs d (Outside fs cs) c := fun n hn x hx i hi y hy hi' => by
  have heq : x = y := hi.unique hs (hn x hx) (hr y hy) hi'
  exact h n hn x hx (heq ▸ hy)

theorem Layout.within (h : Layout fs d current old) :
    Dev.Within (Outside fs (clusters fs d current ++ clusters fs d old)) (findSlots fs) d := by
  obtain ⟨boot, hboot, hcur, hold, hsize, hsize', hap⟩ := findSlots_cases h.found
  have hR := head_outside h.sound h.range
  have hdir := dirIn_outside h.sound h.range (h.boot boot hboot)
  refine .bind (within_dirFind h.sound h.fullFat h.esp hR dirIn_zero) ?_
  rw [hboot]
  refine .bind (within_dirFind h.sound h.fullFat h.esp hR hdir) ?_
  rw [hcur]
  refine .bind (within_dirFind h.sound h.fullFat h.esp hR hdir) ?_
  rw [hold]
  dsimp only
  rw [if_neg (by rw [hsize, hsize']; simp)]
  refine .bind (within_slotsApart h.sound h.fullFat hR) ?_
  rw [hap]
  trivial

/-- Writing in the slots keeps the layout, and the clusters of the slots. -/
theorem Layout.keep (h : Layout fs d current old)
    (ho : OnlyIn fs (clusters fs d current ++ clusters fs d old) d d') :
    Layout fs d' current old ∧ clusters fs d' current = clusters fs d current ∧
      clusters fs d' old = clusters fs d old := by
  have hs := h.sound
  have hf := h.fullFat
  have hdata : 1 ≤ fs.dataSector := by
    have := hs.fat
    have := hs.root
    omega
  have hcur := (h.slots.properCurrent.onlyIn hs hf h.range ho).1
  have hold := (h.slots.properOld.onlyIn hs hf h.range ho).1
  have hbefore : ∀ i < espOffset + 512, d'.bytes i = d.bytes i := fun i hi => ho.before hs h.range (by omega)
  have hvalue : ∀ {α : Type} {p : Dev α}, Dev.Within (Outside fs (clusters fs d current ++ clusters fs d old)) p d →
      Dev.value p d' = Dev.value p d := fun hp => hp.value_eq ho.size ho.bytes
  refine ⟨⟨ho.hasEsp h.esp, ?_, ?_, ?_, fun boot hboot n hn => ?_⟩, hcur, hold⟩
  · rw [hvalue, h.opened]
    refine .bind (.read fun x _ hx => head_outside hs h.range x (by omega)) ?_
    split <;> trivial
  · have hfat : fatSectors d' = fatSectors d := le16_congr (hbefore _ (by omega)) (hbefore _ (by omega))
    rw [hfat]
    exact h.full
  · rw [hvalue h.within, h.found]
  · rw [hvalue (within_dirFind hs hf h.esp (head_outside hs h.range) dirIn_zero)] at hboot
    have heq := chain_congr (fun c hc => (ho.fatEntry hs hf h.range hc).symm) hn
    rw [clusters, clusters, hcur, hold, ← heq]
    exact h.boot boot hboot n (heq ▸ hn)

/-! ## One run -/

/-- Writing a slot and reading it back, which can end anywhere. -/
theorem writeVerified_wp {buf : Buf} (hs : Sound fs) (hf : FullFat fs) (he : HasEsp d) (hsize : f.size = kernelSlot)
    (hp : Proper fs d (clustersNeeded fs f) f.firstCluster) : Dev.WP faults (writeVerified fs f buf) d
      (fun ok d' => OnlyIn fs (clusters fs d f) d d' ∧
        ((∀ j < kernelSlot, slot fs (clusters fs d f) d' j = buf j) ∨ ok = false) ∧ (ok = false → faults = true))
      (fun o d' => ∀ k, OnlyIn fs (clusters fs d f) d (tear o k d')) := by
  refine WP.seq (fileIo_write_wp hs hf he hsize hp) (fun r d1 h => ?_)
  obtain ⟨honly, ⟨hslot, hne⟩ | ⟨rfl, hfault⟩⟩ := h
  · obtain ⟨b, rfl⟩ := Option.ne_none_iff_exists'.mp hne
    obtain ⟨hchain, hp1⟩ := hp.onlyIn hs hf hp.range honly
    refine WP.seq (fileIo_read_wp hs hf (honly.hasEsp he) (fun _ _ _ => honly) hsize hp1) (fun r d' h => ?_)
    rw [clusters, hchain] at h
    obtain ⟨rfl, ⟨p, rfl, hread⟩ | ⟨rfl, hfault⟩⟩ := h
    · have hsame : sameBytes kernelSlot buf p = true := decide_eq_true fun j hj => by rw [hread j hj, hslot j hj]
      refine ⟨honly, .inl hslot, fun hok => ?_⟩
      rw [hsame] at hok
      cases hok
    · exact ⟨honly, .inr rfl, fun _ => hfault⟩
  · exact ⟨honly, .inr rfl, fun _ => hfault⟩

/-- Some slot holds what the current one held in `d`, and only slots have changed. -/
structure Kept (fs : Fat16) (current old : FatFile) (d d' : Disk) : Prop where
  only : OnlyIn fs (clusters fs d current ++ clusters fs d old) d d'
  some : (∀ j < kernelSlot, slot fs (clusters fs d current) d' j = slot fs (clusters fs d current) d j) ∨
    ∀ j < kernelSlot, slot fs (clusters fs d old) d' j = slot fs (clusters fs d current) d j

theorem Kept.refl : Kept fs current old d d := ⟨.refl _ d, .inl fun _ _ => rfl⟩

/-- Writing one slot leaves what is in the other. -/
theorem Slots.current_eq (h : Slots fs d current old) (hs : Sound fs) (ho : OnlyIn fs (clusters fs d old) d d')
    {j : Nat} (hj : j < kernelSlot) : slot fs (clusters fs d current) d' j = slot fs (clusters fs d current) d j := by
  refine ho.slot hs h.properOld.range h.properCurrent.range (fun c hc hc' => h.apart c hc' hc) ?_
  rwa [length_chain, needed_mul hs h.sizeCurrent]

/-- As long as only the old slot is written, the current one is what it was. -/
theorem Kept.of_old (h : Slots fs d current old) (hs : Sound fs) (ho : OnlyIn fs (clusters fs d old) d d') :
    Kept fs current old d d' :=
  ⟨ho.mono fun _ hc => mem_append_right _ hc, .inl fun _ hj => h.current_eq hs ho hj⟩

/-- When the old slot holds the contents of the current one, that can be written. -/
theorem Kept.of_current (h : Slots fs d current old) (hs : Sound fs) {d1 : Disk}
    (h1 : OnlyIn fs (clusters fs d old) d d1)
    (hcopy : ∀ j < kernelSlot, slot fs (clusters fs d old) d1 j = slot fs (clusters fs d current) d j)
    (ho : OnlyIn fs (clusters fs d current) d1 d') : Kept fs current old d d' := by
  refine ⟨(h1.trans ho).mono fun c hc => ?_, .inr fun j hj => ?_⟩
  · exact mem_append.mpr (mem_append.mp hc).symm
  · rw [← hcopy j hj]
    refine ho.slot hs h.properCurrent.range h.properOld.range h.apart ?_
    rwa [length_chain, needed_mul hs h.sizeOld]

/-- A run, wherever it stops, leaves what was in the current slot in one of the two. -/
theorem updateKernel_wp (h : Layout fs d current old) :
    Dev.WP faults (updateKernel staged) d (fun _ => Kept fs current old d)
      (fun o d' => ∀ k, Kept fs current old d (tear o k d')) := by
  have hs := h.sound
  have hf := h.fullFat
  have hslots := h.slots
  refine WP.seq (strict_fatOpen.wp fun _ _ _ => Kept.refl) (fun r d' hr => ?_)
  rw [h.opened] at hr
  obtain ⟨rfl, rfl | ⟨rfl, -⟩⟩ := hr
  swap
  · exact Kept.refl
  refine WP.seq (strict_findSlots.wp fun _ _ _ => Kept.refl) (fun r d' hr => ?_)
  rw [h.found] at hr
  obtain ⟨rfl, rfl | ⟨rfl, -⟩⟩ := hr
  swap
  · exact Kept.refl
  refine WP.seq (fileIo_read_wp hs hf h.esp (fun _ _ _ => Kept.refl) hslots.sizeCurrent hslots.properCurrent)
    (fun r d' hr => ?_)
  obtain ⟨rfl, ⟨p, rfl, hread⟩ | ⟨rfl, -⟩⟩ := hr
  swap
  · exact Kept.refl
  dsimp only
  generalize sameBytes kernelSlot p staged = same
  rcases same with _ | _
  swap
  · exact Kept.refl
  refine WP.bind (writeVerified_wp hs hf h.esp hslots.sizeOld hslots.properOld) (fun ok d1 hok => ?_)
    fun _ _ ho k => Kept.of_old hslots hs (ho k)
  obtain ⟨ho, hcopy, -⟩ := hok
  cases ok with
  | false => exact Kept.of_old hslots hs ho
  | true =>
    have hcopy := hcopy.resolve_right Bool.false_ne_true.symm
    have hold : ∀ j < kernelSlot, slot fs (clusters fs d' old) d1 j = slot fs (clusters fs d' current) d' j :=
      fun j hj => (hcopy j hj).trans (hread j hj)
    obtain ⟨hchain, hp1⟩ := hslots.properCurrent.onlyIn hs hf hslots.properOld.range ho
    have hw : Dev.WP faults (writeVerified fs current staged) d1 _ _ :=
      writeVerified_wp hs hf (ho.hasEsp h.esp) hslots.sizeCurrent hp1
    rw [clusters, hchain] at hw
    exact hw.mono (fun _ _ hd => Kept.of_current hslots hs ho hold hd.1) fun _ _ hd k =>
      Kept.of_current hslots hs ho hold (hd k)

/-! ## Sequences of runs -/

/-- The file holds an image, byte for byte. -/
def Holds (fs : Fat16) (f : FatFile) (image : Buf) (d : Disk) : Prop :=
  ∀ j < kernelSlot, slot fs (clusters fs d f) d j = image j

/-- A disk, and the images so far: the one that the current slot held at the start, and
those that were staged. -/
structure History where
  disk : Disk
  images : List Buf

/-- A run with a staged kernel, up to any moment. -/
def Ran (bsz : Nat) (s s' : History) : Prop :=
  ∃ file image, readStaged file = some image ∧ s'.images = image :: s.images ∧
    (lower bsz (updateKernel image)).Reaches (BlockAllows true) s.disk s'.disk

/-- One of the slots holds one of the images. -/
def Survives (fs : Fat16) (current old : FatFile) (s : History) : Prop :=
  ∃ image ∈ s.images, Holds fs current image s.disk ∨ Holds fs old image s.disk

/-- The current slot holds one of the images. -/
def Whole (fs : Fat16) (current : FatFile) (s : History) : Prop :=
  ∃ image ∈ s.images, Holds fs current image s.disk

theorem Ran.survives {bsz : Nat} (hb : 0 < bsz) {s s' : History} (hl : Layout fs s.disk current old)
    (hw : Whole fs current s) (h : Ran bsz s s') : Layout fs s'.disk current old ∧ Survives fs current old s' := by
  obtain ⟨file, staged, -, himages, hreach⟩ := h
  obtain ⟨image, hmem, hholds⟩ := hw
  obtain ⟨honly, hkept⟩ := WP.reaches (lower_wp hb (.inl rfl) (updateKernel_wp hl)) hreach
  obtain ⟨hl', hcur, hold⟩ := hl.keep honly
  refine ⟨hl', image, himages ▸ mem_cons_of_mem _ hmem, ?_⟩
  rw [Holds, Holds, hcur, hold]
  exact hkept.imp (fun h j hj => (h j hj).trans (hholds j hj)) fun h j hj => (h j hj).trans (hholds j hj)

/-- Runs that each start with a whole image in the current slot, and may be cut short
anywhere, leave an image in one of the slots at every moment. -/
theorem update_survives {bsz : Nat} (hb : 0 < bsz) {image : Buf} {s : History} (hl : Layout fs d current old)
    (hi : Holds fs current image d)
    (h : Relation.ReflTransGen (fun s s' => Whole fs current s ∧ Ran bsz s s') ⟨d, [image]⟩ s) :
    Survives fs current old s := by
  suffices hinv : Layout fs s.disk current old ∧ Survives fs current old s from hinv.2
  induction h with
  | refl => exact ⟨hl, image, mem_singleton_self image, .inl hi⟩
  | tail _ hstep ih => exact hstep.2.survives hb ih.1 hstep.1

/-! ## Half of an image -/

section

variable {bsz : Nat}

/-- What holds at the end of a run without faults can be reached, and then what comes after. -/
theorem reaches_bind {α β : Type} {p : Dev α} {g : α → Dev β} {Q : α → Disk → Prop} {C : Op → Disk → Prop}
    {P : Disk → Prop} (hb : 0 < bsz) (hdev : bsz ∣ d.size) (h : Dev.WP false p d Q C)
    (hg : ∀ a d1, Q a d1 → ∃ d', (lower bsz (g a)).Reaches (BlockAllows true) d1 d' ∧ P d') :
    ∃ d', (lower bsz (p >>= g)).Reaches (BlockAllows true) d d' ∧ P d' := by
  have hl : BlockWP false (lower bsz p) d Q fun _ => True :=
    lower_wp hb (.inr hdev) (h.mono (fun _ _ h => h) fun _ _ _ _ => trivial)
  obtain ⟨a, d1, hcan, hq⟩ := WP.exists_can (A := BlockAllows true) hl (c := .ok) trivial trivial
  obtain ⟨d', hreach, hp⟩ := hg a d1 hq
  refine ⟨d', ?_, hp⟩
  rw [lower_bind]
  exact hcan.reaches hreach

/-- A run copies the current slot to the old one, whatever is in it, and goes on. -/
theorem updateKernel_reaches {P : Disk → Prop} (hb : 0 < bsz) (hdev : bsz ∣ d.size) (h : Layout fs d current old)
    {i : Nat} (hi : i < kernelSlot) (hne : slot fs (clusters fs d current) d i ≠ staged i)
    (hgo : ∀ d1, OnlyIn fs (clusters fs d old) d d1 →
      (∀ j < kernelSlot, slot fs (clusters fs d old) d1 j = slot fs (clusters fs d current) d j) →
      ∃ d', (lower bsz (writeVerified fs current staged)).Reaches (BlockAllows true) d1 d' ∧ P d') :
    ∃ d', (lower bsz (updateKernel staged)).Reaches (BlockAllows true) d d' ∧ P d' := by
  have hslots := h.slots
  refine reaches_bind (C := fun _ _ => True) hb hdev (strict_fatOpen.wp fun _ _ => trivial) fun r d' hr => ?_
  rw [h.opened] at hr
  obtain ⟨rfl, rfl | hr⟩ := hr
  swap
  · cases hr.2
  refine reaches_bind (C := fun _ _ => True) hb hdev (strict_findSlots.wp fun _ _ => trivial) fun r d' hr => ?_
  rw [h.found] at hr
  obtain ⟨rfl, rfl | hr⟩ := hr
  swap
  · cases hr.2
  refine reaches_bind (C := fun _ _ => True) hb hdev
    (fileIo_read_wp h.sound h.fullFat h.esp (fun _ _ => trivial) hslots.sizeCurrent hslots.properCurrent)
    fun r d' hr => ?_
  obtain ⟨rfl, ⟨p, rfl, hread⟩ | hr⟩ := hr
  swap
  · cases hr.2
  have hdiff : sameBytes kernelSlot p staged = false := decide_eq_false fun hall => hne <| by
    rw [← hread i hi, hall i hi]
  dsimp only
  rw [hdiff]
  refine reaches_bind hb hdev (writeVerified_wp h.sound h.fullFat h.esp hslots.sizeOld hslots.properOld)
    fun ok d1 hok => ?_
  obtain ⟨ho, hcopy, htrue⟩ := hok
  obtain rfl : ok = true := Bool.eq_true_of_not_eq_false fun hf => Bool.false_ne_true (htrue hf)
  exact hgo d1 ho fun j hj => ((hcopy.resolve_right Bool.false_ne_true.symm) j hj).trans (hread j hj)

/-- `raw_io` can stop after a first whole block. -/
theorem rawWrite_reaches {α : Type} {g : Bool → Prog (Block.machine 512) α} {off len : Nat} {p : Buf}
    (hoff : off % 512 = 0) (hlen : 512 ≤ len) (hin : off + len ≤ d.size) :
    (rawWrite 512 len off len p >>= g).Reaches (BlockAllows true) d (d.overwrite off 512 p) := by
  obtain ⟨n, rfl⟩ : ∃ n, len = n + 1 := ⟨len - 1, by omega⟩
  have hdiv : off / 512 * 512 = off := by omega
  have hstep : (Block.step 512 (.write (off / 512) p) .ok d).2 = d.overwrite off 512 p := by
    rw [Block.step, if_pos (by omega), hdiv]
  rw [rawWrite, if_neg (by omega), hoff, Nat.sub_zero, rawWriteBlock, if_neg (by omega), Prog.bind_assoc, ← hstep]
  exact Prog.Reaches.op (M := Block.machine 512) (A := BlockAllows true) (c := .ok) trivial

/-- It can stop when it has written the first block of a slot. -/
theorem writeVerified_reaches {buf : Buf} (hs : Sound fs) (hsize : f.size = kernelSlot)
    (hp : inRange fs f.firstCluster = true) (he : HasEsp d) :
    (lower 512 (writeVerified fs f buf)).Reaches (BlockAllows true) d
      (d.overwrite (clusterOff fs f.firstCluster) 512 buf) := by
  have hpos := hs.spc
  have hrange := clusterOff_range hs hp
  have hfew := hs.few
  obtain ⟨n, hn⟩ : ∃ n, fs.clusterCount = n + 1 := ⟨fs.clusterCount - 1, by omega⟩
  obtain ⟨m, hm⟩ : ∃ m, clustersNeeded fs f = m + 1 := by
    refine Nat.exists_eq_succ_of_ne_zero fun hz => ?_
    have := needed_mul hs hsize
    rw [hz, Nat.zero_mul] at this
    exact absurd this (by decide)
  obtain ⟨loop, hround⟩ : ∃ loop,
      fileIo fs f (some buf) = fileRound fs f.size (some buf) loop f.firstCluster 0 (clusterBytes fs) := by
    rw [fileIo, hn]
    refine ⟨_, fileLoop_succ hs hp (n := m) ?_⟩
    rw [← hm, needed_mul hs hsize, hsize, Nat.zero_add]
  rw [writeVerified, lower_bind, hround, fileRound, lower_bind, chunkIo, lower_bind]
  refine .bind (.bind (.bind ?_))
  simp only [Nat.zero_add]
  refine rawWrite_reaches ?_ ?_ ?_
  · rw [clusterOff, sectorOff, hs.bps, espOffset]
    omega
  · rw [clusterBytes]
    omega
  · exact le_trans hrange.2 he

end

theorem sampleEsp_clusters : clusters sampleFat sampleEsp sampleCurrent = range' 3 1536 ∧
    clusters sampleFat sampleEsp sampleOld = range' 1539 1536 := by
  have h : ∀ c, 3 ≤ c → c < 2000 → chain sampleFat sampleEsp 1536 c = range' c 1536 := fun c hc hlt =>
    chain_ascending fun x hx hx' => sampleEsp_fatEntry (by omega) (by omega)
  exact ⟨h 3 (by decide) (by decide), h 1539 (by decide) (by decide)⟩

theorem sampleEsp_layout : Layout sampleFat sampleEsp sampleCurrent sampleOld := by
  refine ⟨sampleEsp_sound.2.2, sampleEsp_open, by decide, sampleEsp_slots, fun boot hboot n hn x hx => ?_⟩
  obtain rfl : boot = ⟨2, kernelSlot⟩ := by
    exact (Option.some.inj (Option.some.inj hboot)).symm
  -- the directory has one cluster
  have hone : x = 2 := by
    rcases n with _ | _ | n
    · cases hx
    · exact mem_singleton.mp hx
    · have hbad := hn (fatEntry sampleFat sampleEsp 2) (mem_cons_of_mem _ mem_cons_self)
      exact absurd hbad (by decide)
  rw [sampleEsp_clusters.1, sampleEsp_clusters.2, mem_append, mem_range'_1, mem_range'_1]
  omega

/-- The kernel in the current slot. -/
def sampleKernel : Buf := fun j => elfHeader.getD j 0xaa

theorem sampleEsp_holds : Holds sampleFat sampleCurrent sampleKernel sampleEsp := fun j hj => by
  have hdiv : j / 2048 < 1536 := Nat.div_lt_of_lt_mul hj
  have hget : (range' 3 1536).getD (j / 2048) 0 = 3 + j / 2048 := by
    rw [getD_eq_getElem _ _ (by rwa [length_range']), getElem_range', Nat.one_mul]
  have hoff : clusterOff sampleFat (3 + j / 2048) + j % 2048 = espOffset + (22 * 512 + j) := by
    rw [clusterOff_eq sampleEsp_sound.1, show sampleFat.dataSector = 18 from rfl,
      show clusterBytes sampleFat = 2048 from rfl]
    omega
  rw [slot, show clusterBytes sampleFat = 2048 from rfl, sampleEsp_clusters.1, hget, hoff, sampleEsp_bytes]
  rw [espBytes, if_neg (by omega), if_neg (by omega), if_neg (by omega), if_neg (by omega), if_neg (by omega),
    if_neg (by omega), if_neg (by omega), Nat.add_sub_cancel_left, sampleKernel]

/-- A kernel that is staged. -/
def sampleFile : Bytes := elfHeader ++ replicate 44 0

def sampleStaged : Buf := fun i => sampleFile.getD i 0

theorem sampleFile_staged : readStaged sampleFile = some sampleStaged := by
  rfl

/-- The first block of the current slot is of the staged kernel, and the second is not. -/
structure Half (d : Disk) : Prop where
  only : OnlyIn sampleFat (clusters sampleFat sampleEsp sampleCurrent ++
    clusters sampleFat sampleEsp sampleOld) sampleEsp d
  first : slot sampleFat (clusters sampleFat sampleEsp sampleCurrent) d 20 = 0
  second : slot sampleFat (clusters sampleFat sampleEsp sampleCurrent) d 600 = 0xaa

/-- A first run can leave half of an image in the current slot. -/
theorem sample_half : ∃ d, (lower 512 (updateKernel sampleStaged)).Reaches (BlockAllows true) sampleEsp d ∧ Half d := by
  obtain ⟨hs, hf, he⟩ := sampleEsp_sound
  have hl := sampleEsp_layout
  refine updateKernel_reaches (by decide) (by decide) hl (i := 600) (by decide) ?_ fun d1 ho hcopy => ?_
  · decide
  · refine ⟨_, writeVerified_reaches hs rfl rfl (ho.hasEsp he), ?_⟩
    have hfirst : ∀ j < 2048, ∀ d, slot sampleFat (clusters sampleFat sampleEsp sampleCurrent) d j =
        d.bytes (clusterOff sampleFat sampleCurrent.firstCluster + j) := fun j hj d => by
      exact slot_cons_lt hj
    have hmem : sampleCurrent.firstCluster ∈ clusters sampleFat sampleEsp sampleCurrent := by
      decide
    refine ⟨(ho.trans (OnlyIn.overwrite (by decide))).mono fun c hc => ?_, ?_, ?_⟩
    · rcases mem_append.mp hc with hc | hc
      · exact mem_append_right _ hc
      · exact mem_append_left _ (mem_singleton.mp hc ▸ hmem)
    · rw [hfirst 20 (by decide), overwrite_in (by omega) (by omega)]
      decide
    · rw [hfirst 600 (by decide), overwrite_out (by omega), ← hfirst 600 (by decide),
        hl.slots.current_eq hs ho (by decide)]
      decide

/-- A kernel that a run writes when power fails: the old slot still holds the first one. -/
theorem update_survives_cut : ∃ s, Ran 512 ⟨sampleEsp, [sampleKernel]⟩ s ∧ Half s.disk ∧
    Survives sampleFat sampleCurrent sampleOld s := by
  obtain ⟨d, hreach, hhalf⟩ := sample_half
  have hran : Ran 512 ⟨sampleEsp, [sampleKernel]⟩ ⟨d, [sampleStaged, sampleKernel]⟩ :=
    ⟨sampleFile, sampleStaged, sampleFile_staged, rfl, hreach⟩
  have hwhole : Whole sampleFat sampleCurrent ⟨sampleEsp, [sampleKernel]⟩ :=
    ⟨sampleKernel, mem_singleton_self _, sampleEsp_holds⟩
  exact ⟨_, hran, hhalf, update_survives (by decide) sampleEsp_layout sampleEsp_holds (.single ⟨hwhole, hran⟩)⟩

/-- But the next run copies half of an image over the old slot, and if power fails again
then, neither slot holds an image. -/
theorem update_survives_not : Layout sampleFat sampleEsp sampleCurrent sampleOld ∧
    Holds sampleFat sampleCurrent sampleKernel sampleEsp ∧
    ∃ s₁ s₂, Ran 512 ⟨sampleEsp, [sampleKernel]⟩ s₁ ∧ Ran 512 s₁ s₂ ∧
      ¬ Survives sampleFat sampleCurrent sampleOld s₂ := by
  obtain ⟨d, hreach, hhalf⟩ := sample_half
  obtain ⟨hl, hcur, hold⟩ := sampleEsp_layout.keep hhalf.only
  have hsecond : slot sampleFat (clusters sampleFat d sampleCurrent) d 600 ≠ sampleStaged 600 := by
    rw [hcur, hhalf.second]
    decide
  obtain ⟨d2, hreach2, ho, hcopy⟩ : ∃ d2, (lower 512 (updateKernel sampleStaged)).Reaches (BlockAllows true) d d2 ∧
      OnlyIn sampleFat (clusters sampleFat d sampleOld) d d2 ∧ ∀ j < kernelSlot,
        slot sampleFat (clusters sampleFat d sampleOld) d2 j = slot sampleFat
          (clusters sampleFat d sampleCurrent) d j :=
    updateKernel_reaches (by decide) (hhalf.only.size ▸ by decide) hl (by decide) hsecond fun d1 ho hcopy =>
      ⟨d1, .refl, ho, hcopy⟩
  refine ⟨sampleEsp_layout, sampleEsp_holds, ⟨d, [sampleStaged, sampleKernel]⟩,
    ⟨d2, [sampleStaged, sampleStaged, sampleKernel]⟩, ⟨sampleFile, _, sampleFile_staged, rfl, hreach⟩,
    ⟨sampleFile, _, sampleFile_staged, rfl, hreach2⟩, ?_⟩
  obtain ⟨-, hcur2, hold2⟩ := hl.keep (ho.mono fun c hc => mem_append_right _ hc)
  rintro ⟨image, himage, hholds⟩
  -- either slot holds half of the staged kernel
  have hmix : image 20 = 0 ∧ image 600 = 0xaa := by
    rw [← hhalf.first, ← hhalf.second, ← hcur]
    rcases hholds with hholds | hholds
    · rw [← hholds 20 (by decide), ← hholds 600 (by decide), hcur2]
      exact ⟨hl.slots.current_eq hl.sound ho (by decide), hl.slots.current_eq hl.sound ho (by decide)⟩
    · rw [← hholds 20 (by decide), ← hholds 600 (by decide)]
      exact ⟨hcopy 20 (by decide), hcopy 600 (by decide)⟩
  have hcases : image = sampleStaged ∨ image = sampleKernel := by
    simpa using himage
  rcases hcases with rfl | rfl
  · exact absurd hmix.2 (by decide)
  · exact absurd hmix.1 (by decide)

end Lorica.Proof.Update
