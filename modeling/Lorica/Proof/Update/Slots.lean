import Lorica.Proof.Update.Fat

/-!
# lorica-update: the two slots

`find_slots` gives two files of the size of a slot, whose chains are proper and have no
cluster in common (`findSlots_value`). Writing one of them, wherever it stops, leaves
the other one, the FAT and all that lies before the data area (`slot_write_isolated`).
-/

namespace Lorica.Proof.Update

open Lorica.Impl.Update Disk

variable {fs : Fat16} {d d' : Disk} {current old f : FatFile} {buf : Buf} {faults : Bool}

/-! ## They only read -/

theorem strict_fatOpen : Dev.Strict none fatOpen := by
  refine .bind .read rfl fun r => ?_
  split <;> exact .pure _ _

theorem strict_markChain (f : FatFile) (used : List Nat) : Dev.Strict none (markChain fs f used) :=
  strict_markLoop _ _ _

theorem strict_dirBlocks (name : Bytes) (off : Nat → Nat) (n i : Nat) : Dev.Strict none (dirBlocks name off n i) := by
  induction n generalizing i with
  | zero => exact .pure _ _
  | succ n ih =>
    refine .bind .read rfl fun r => ?_
    split
    · exact .pure _ _
    split
    · exact .pure _ _
    · exact ih _

theorem strict_dirClusters (name : Bytes) (left c : Nat) : Dev.Strict none (dirClusters fs name left c) := by
  induction left generalizing c with
  | zero =>
    rw [dirClusters]
    refine .bind (strict_dirBlocks _ _ _ _) rfl fun r => ?_
    split <;> exact .pure _ _
  | succ left ih =>
    rw [dirClusters]
    refine .bind (strict_dirBlocks _ _ _ _) rfl fun r => ?_
    split
    · exact .pure _ _
    · exact .pure _ _
    refine .bind strict_fatNext rfl fun r => ?_
    split
    · exact .pure _ _
    split
    · exact .pure _ _
    split
    · exact .pure _ _
    · exact ih _

theorem strict_dirFind (dir : Nat) (name : Bytes) : Dev.Strict none (dirFind fs dir name) := by
  unfold dirFind
  split
  · refine .bind (strict_dirBlocks _ _ _ _) rfl fun r => ?_
    split <;> exact .pure _ _
  split
  · exact .pure _ _
  · exact strict_dirClusters _ _ _

theorem strict_slotsApart (f g : FatFile) : Dev.Strict false (slotsApart fs f g) := by
  refine .bind (strict_markChain _ _) rfl fun r => ?_
  split
  · exact .pure _ _
  refine .bind (strict_markChain _ _) rfl fun r => ?_
  split <;> exact .pure _ _

theorem strict_findSlots : Dev.Strict none (findSlots fs) := by
  refine .bind (strict_dirFind _ _) rfl fun r => ?_
  split
  · refine .bind (strict_dirFind _ _) rfl fun r => ?_
    split
    · refine .bind (strict_dirFind _ _) rfl fun r => ?_
      split
      · split
        · exact .pure _ _
        refine .bind (strict_slotsApart _ _) rfl fun r => ?_
        split <;> exact .pure _ _
      · exact .pure _ _
    · exact .pure _ _
  · exact .pure _ _

/-! ## What `find_slots` accepts -/

/-- The clusters of a file. -/
abbrev clusters (fs : Fat16) (d : Disk) (f : FatFile) : List Nat := chain fs d (clustersNeeded fs f) f.firstCluster

/-- Two slots as `find_slots` accepts them. -/
structure Slots (fs : Fat16) (d : Disk) (current old : FatFile) : Prop where
  sizeCurrent : current.size = kernelSlot
  sizeOld : old.size = kernelSlot
  properCurrent : Proper fs d (clustersNeeded fs current) current.firstCluster
  properOld : Proper fs d (clustersNeeded fs old) old.firstCluster
  apart : ∀ c ∈ clusters fs d old, c ∉ clusters fs d current

theorem Slots.swap (h : Slots fs d current old) : Slots fs d old current :=
  ⟨h.sizeOld, h.sizeCurrent, h.properOld, h.properCurrent, fun c hc hc' => h.apart c hc' hc⟩

theorem slotsApart_value (hs : Sound fs) (hf : FullFat fs) (he : HasEsp d)
    (h : Dev.value (slotsApart fs current old) d = true) :
    Proper fs d (clustersNeeded fs current) current.firstCluster ∧
      Proper fs d (clustersNeeded fs old) old.firstCluster ∧
      ∀ c ∈ clusters fs d old, c ∉ clusters fs d current := by
  rw [slotsApart, Dev.value_bind (strict_markChain _ _).uses] at h
  cases h1 : Dev.value (markChain fs current []) d with
  | none =>
    rw [h1] at h
    cases h
  | some used =>
    rw [h1] at h
    rw [Dev.value_bind (strict_markChain _ _).uses] at h
    cases h2 : Dev.value (markChain fs old used) d with
    | none =>
      rw [h2] at h
      cases h
    | some used' =>
      obtain ⟨hp, -, hmem⟩ := markLoop_value hs hf he h1
      obtain ⟨hp', hnew, -⟩ := markLoop_value hs hf he h2
      exact ⟨hp, hp', fun c hc hc' => hnew c hc ((hmem c).mpr (.inr hc'))⟩

/-- The three lookups of `find_slots`, and what it checks of them. -/
theorem findSlots_cases (h : Dev.value (findSlots fs) d = some (current, old)) :
    ∃ boot, Dev.value (dirFind fs 0 bootName) d = some (some boot) ∧
      Dev.value (dirFind fs boot.firstCluster kernelName) d = some (some current) ∧
      Dev.value (dirFind fs boot.firstCluster oldName) d = some (some old) ∧
      current.size = kernelSlot ∧ old.size = kernelSlot ∧ Dev.value (slotsApart fs current old) d = true := by
  rw [findSlots, Dev.value_bind (strict_dirFind _ _).uses] at h
  split at h
  · rename_i boot hboot
    rw [Dev.value_bind (strict_dirFind _ _).uses] at h
    split at h
    · rename_i current' hcurrent
      rw [Dev.value_bind (strict_dirFind _ _).uses] at h
      split at h
      · rename_i old' hold
        split at h
        · cases h
        rename_i hsize
        rw [not_or, not_not, not_not] at hsize
        rw [Dev.value_bind (strict_slotsApart _ _).uses] at h
        cases hap : Dev.value (slotsApart fs current' old') d with
        | false =>
          rw [hap] at h
          cases h
        | true =>
          rw [hap] at h
          cases h
          exact ⟨boot, hboot, hcurrent, hold, hsize.1, hsize.2, hap⟩
      · cases h
    · cases h
  · cases h

theorem findSlots_value (hs : Sound fs) (hf : FullFat fs) (he : HasEsp d)
    (h : Dev.value (findSlots fs) d = some (current, old)) : Slots fs d current old := by
  obtain ⟨-, -, -, -, hcur, hold, hap⟩ := findSlots_cases h
  obtain ⟨hp, hp', hdis⟩ := slotsApart_value hs hf he hap
  exact ⟨hcur, hold, hp, hp', hdis⟩

theorem fatOpen_value (he : HasEsp d) (h : Dev.value fatOpen d = some fs) :
    Sound fs ∧ fs.fatSector + fatSectors d ≤ fs.rootSector := by
  have hle : espOffset + 512 ≤ d.size := le_trans (by decide) he
  have hv : Dev.value fatOpen d = fatOfBoot (d.slice espOffset 512) := by
    rw [fatOpen, Dev.value_bind Dev.Strict.read.uses, Dev.value_read, if_pos (.inr hle)]
    rfl
  obtain ⟨hs, hfat⟩ := fatOfBoot_sound (hv.symm.trans h)
  refine ⟨hs, ?_⟩
  have heq : le16 (d.slice espOffset 512) 22 = fatSectors d :=
    le16_congr (slice_of_lt (by omega)) (slice_of_lt (by omega))
  rwa [heq] at hfat

/-- A FAT with enough sectors has an entry for each cluster. -/
theorem fullFat_of_sectors (hs : Sound fs) {n : Nat} (hn : fs.fatSector + n ≤ fs.rootSector)
    (hfull : (fs.clusterCount + 2) * 2 ≤ n * 512) : FullFat fs := fun c hc => by
  have hlt := (inRange_iff.mp hc).2
  rw [entryOff, sectorOff, sectorOff, hs.bps]
  omega

theorem needed_mul (hs : Sound fs) (hf : f.size = kernelSlot) : clustersNeeded fs f * clusterBytes fs = kernelSlot := by
  have hle := hs.spc_le
  have hpos := hs.spc
  rw [clustersNeeded, hf, clusterBytes]
  generalize fs.sectorsPerCluster = n at hle hpos
  interval_cases n <;> rfl

/-! ## Reading and writing a slot -/

theorem fileIo_read_wp {C : Op → Disk → Prop} (hs : Sound fs) (hf : FullFat fs) (he : HasEsp d)
    (hC : ∀ off len, C (.read off len) d) (hsize : f.size = kernelSlot)
    (hp : Proper fs d (clustersNeeded fs f) f.firstCluster) : Dev.WP faults (fileIo fs f none) d
      (fun r d' => d' = d ∧ Gives faults kernelSlot (slot fs (clusters fs d f) d) r) C := by
  have h : Dev.WP faults (fileIo fs f none) d _ C := fileLoop_read_wp hs hf he hC hp hp.length_le
    (show f.size = 0 + clustersNeeded fs f * clusterBytes fs by rw [needed_mul hs hsize, hsize, Nat.zero_add])
  rwa [needed_mul hs hsize] at h

theorem fileIo_write_wp (hs : Sound fs) (hf : FullFat fs) (he : HasEsp d) (hsize : f.size = kernelSlot)
    (hp : Proper fs d (clustersNeeded fs f) f.firstCluster) : Dev.WP faults (fileIo fs f (some buf)) d
      (fun r d' => OnlyIn fs (clusters fs d f) d d' ∧
        ((∀ j < kernelSlot, slot fs (clusters fs d f) d' j = buf j) ∧ r ≠ none ∨ r = none ∧ faults = true))
      (fun o d' => ∀ k, OnlyIn fs (clusters fs d f) d (tear o k d')) := by
  have h : Dev.WP faults (fileIo fs f (some buf)) d _ _ := fileLoop_write_wp hs hf he hp hp.length_le
    (show f.size = 0 + clustersNeeded fs f * clusterBytes fs by rw [needed_mul hs hsize, hsize, Nat.zero_add])
  simp only [needed_mul hs hsize, Nat.zero_add] at h
  exact h

theorem fileIo_read_exec (hs : Sound fs) (hf : FullFat fs) (he : HasEsp d) (hsize : f.size = kernelSlot)
    (hp : Proper fs d (clustersNeeded fs f) f.firstCluster) :
    ∃ p, Dev.value (fileIo fs f none) d = some p ∧ ∀ j < kernelSlot, p j = slot fs (clusters fs d f) d j := by
  have hwp : Dev.WP false (fileIo fs f none) d _ fun _ _ => True :=
    fileIo_read_wp hs hf he (fun _ _ => trivial) hsize hp
  have h := WP.exec_done hwp (σ := fun _ => .ok) fun _ => trivial
  exact h.2.resolve_right fun hr => by cases hr.2

/-- Writing one slot of an ESP that `fat_open` and `find_slots` accept, with an entry in the
FAT for each cluster: it succeeds, changes bytes in the clusters of its slot only, all of
them in the data area of the ESP, and so neither the other slot nor the boot sector, the
FATs and the root directory, which lie before it. Afterwards the slot reads as the
buffer, and the other one as before. -/
theorem slot_write_isolated (he : HasEsp d) (hopen : Dev.value fatOpen d = some fs)
    (hfull : (fs.clusterCount + 2) * 2 ≤ fatSectors d * 512)
    (hslots : Dev.value (findSlots fs) d = some (current, old)) {g : FatFile}
    (hfg : f = current ∧ g = old ∨ f = old ∧ g = current) (buf : Buf) {σ : Nat → Choice}
    (hσ : ∀ n, Allows false (σ n)) : ∃ r d', (fileIo fs f (some buf)).exec σ d = (some r, d') ∧
      (∀ i, (∀ c ∈ clusters fs d f, ¬ InCluster fs c i) → d'.bytes i = d.bytes i) ∧
      (∀ c ∈ clusters fs d f, ∀ i, InCluster fs c i →
        sectorOff fs fs.dataSector ≤ i ∧ i < espOffset + espSectors * 512) ∧
      (∀ i < sectorOff fs fs.dataSector, d'.bytes i = d.bytes i) ∧
      (∀ c ∈ clusters fs d g, ∀ i, InCluster fs c i → d'.bytes i = d.bytes i) ∧
      (∃ p, Dev.value (fileIo fs f none) d' = some p ∧ ∀ j < kernelSlot, p j = buf j) ∧
      (∃ p q, Dev.value (fileIo fs g none) d = some p ∧ Dev.value (fileIo fs g none) d' = some q ∧
        ∀ j < kernelSlot, q j = p j) := by
  obtain ⟨hs, hfat⟩ := fatOpen_value he hopen
  have hf := fullFat_of_sectors hs hfat hfull
  have h : Slots fs d f g := by
    have h := findSlots_value hs hf he hslots
    rcases hfg with ⟨rfl, rfl⟩ | ⟨rfl, rfl⟩
    · exact h
    · exact h.swap
  have hdata : sectorOff fs fs.dataSector = espOffset + fs.dataSector * 512 := by rw [sectorOff, hs.bps]
  have hwp : Dev.WP false (fileIo fs f (some buf)) d _ _ := fileIo_write_wp hs hf he h.sizeCurrent h.properCurrent
  obtain ⟨honly, hres⟩ := WP.exec_done hwp hσ
  obtain ⟨hslot, hne⟩ := hres.resolve_right fun hr => by cases hr.2
  obtain ⟨r, hr⟩ := Option.ne_none_iff_exists'.mp hne
  -- both chains are what they were
  obtain ⟨hcf, hpf⟩ := h.properCurrent.onlyIn hs hf h.properCurrent.range honly
  obtain ⟨hcg, hpg⟩ := h.properOld.onlyIn hs hf h.properCurrent.range honly
  refine ⟨r, _, Prod.ext hr rfl, honly.bytes, fun c hc i hi => ?_, fun i hi => ?_, fun c hc i hi => ?_, ?_, ?_⟩
  · have hrange := clusterOff_range hs (h.properCurrent.range c hc)
    rw [hdata]
    exact ⟨le_trans hrange.1 hi.1, lt_of_lt_of_le hi.2 hrange.2⟩
  · exact honly.before hs h.properCurrent.range (hdata ▸ hi)
  · refine honly.bytes i fun c' hc' hi' => h.apart c hc ?_
    exact hi.unique hs (h.properOld.range c hc) (h.properCurrent.range c' hc') hi' ▸ hc'
  · obtain ⟨p, hp, hpj⟩ := fileIo_read_exec hs hf (honly.hasEsp he) h.sizeCurrent hpf
    rw [clusters, hcf] at hpj
    exact ⟨p, hp, fun j hj => (hpj j hj).trans (hslot j hj)⟩
  · obtain ⟨p, hp, hpj⟩ := fileIo_read_exec hs hf he h.sizeOld h.properOld
    obtain ⟨q, hq, hqj⟩ := fileIo_read_exec hs hf (honly.hasEsp he) h.sizeOld hpg
    rw [clusters, hcg] at hqj
    refine ⟨p, q, hp, hq, fun j hj => ?_⟩
    rw [hqj j hj, hpj j hj]
    refine honly.slot hs h.properCurrent.range h.properOld.range h.apart ?_
    rwa [length_chain, needed_mul hs h.sizeOld]

/-! ## An ESP -/

theorem chain_ascending {n c : Nat} (hfat : ∀ x, c ≤ x → x + 1 < c + n → fatEntry fs d x = x + 1) :
    chain fs d n c = List.range' c n := by
  induction n generalizing c with
  | zero => rfl
  | succ n ih =>
    rw [chain, List.range'_succ]
    cases n with
    | zero => rfl
    | succ n =>
      rw [hfat c (le_refl c) (by omega), ih fun x hx hx' => hfat x (by omega) (by omega)]

/-- The clusters from `c` on, each of which has the next in its entry, are accepted. -/
theorem markLoop_ascending (hs : Sound fs) (hf : FullFat fs) (he : HasEsp d) (used : List Nat) {n c : Nat}
    (hc : 2 ≤ c) (hn : c + n ≤ fs.clusterCount + 2) (hfat : ∀ x, c ≤ x → x + 1 < c + n → fatEntry fs d x = x + 1)
    (hused : ∀ x ∈ used, x < c) :
    ∃ used', Dev.value (markLoop fs n c used) d = some used' ∧ ∀ x ∈ used', x < c + n := by
  induction n generalizing c used with
  | zero => exact ⟨used, rfl, hused⟩
  | succ n ih =>
    have hr : inRange fs c = true := inRange_iff.mpr ⟨hc, by omega⟩
    have hnew : ∀ x ∈ c :: used, x < c + 1 := fun x hx => by
      rcases List.mem_cons.mp hx with rfl | hx
      · omega
      · have := hused x hx
        omega
    rw [markLoop, if_neg (by
      rintro (h | h)
      · rw [hr] at h
        cases h
      · exact absurd (hused c h) (lt_irrefl c))]
    by_cases hlast : n = 0
    · subst hlast
      exact ⟨c :: used, rfl, hnew⟩
    rw [if_neg hlast, Dev.value_bind strict_fatNext.uses, fatNext_value hs hf he hr, hfat c (le_refl c) (by omega)]
    have hend := hs.many
    dsimp only
    rw [if_neg (by omega)]
    obtain ⟨used', h, hlt⟩ := ih (c :: used) (c := c + 1) (by omega) (by omega)
      (fun x hx hx' => hfat x (by omega) (by omega)) hnew
    exact ⟨used', h, fun x hx => by have := hlt x hx; omega⟩

/-- Its boot sector: clusters of four sectors, one FAT of 16 sectors and one sector of root
directory. -/
def espBoot : Buf := fun i =>
  (([(12, 2), (13, 4), (14, 1), (16, 1), (17, 16), (20, 64), (22, 16), (510, 0x55), (511, 0xaa)] :
    List (Nat × UInt8)).lookup i).getD 0

/-- Its FAT: each cluster has the next in its entry, but for the directory in cluster 2. -/
def espFat : Buf := fun i =>
  let e := if i / 2 = 2 then 0xffff else i / 2 + 1
  UInt8.ofNat (if i % 2 = 0 then e % 256 else e / 256)

/-- An entry of a directory, of a file that starts at cluster `lo + 256 * hi`. -/
def espEntry (name : Bytes) (lo hi : UInt8) : Buf := fun i =>
  if i < 11 then name.getD i 0 else if i = 26 then lo else if i = 27 then hi else if i = 30 then 0x30 else 0

/-- The header of a kernel. -/
def elfHeader : Bytes := [0x7f, 0x45, 0x4c, 0x46, 2, 1, 1, 0, 0, 0, 0, 0, 0, 0, 0, 0, 2, 0, 62, 0]

/-- The bytes of an ESP whose slots start at the clusters 3 and 1539. The current one holds
a kernel. -/
def espBytes : Buf := fun j =>
  if j < 512 then espBoot j
  else if j < 17 * 512 then espFat (j - 512)
  else if j < 17 * 512 + 32 then espEntry bootName 2 0 (j - 17 * 512)
  else if j < 18 * 512 then 0
  else if j < 18 * 512 + 32 then espEntry kernelName 3 0 (j - 18 * 512)
  else if j < 18 * 512 + 64 then espEntry oldName 3 6 (j - 18 * 512 - 32)
  else if j < 22 * 512 then 0
  else elfHeader.getD (j - 22 * 512) 0xaa

def sampleEsp : Disk where
  size := 10 * 1024 * 1024
  bytes i := if i < espOffset then 0 else espBytes (i - espOffset)

theorem sampleEsp_bytes (j : Nat) : sampleEsp.bytes (espOffset + j) = espBytes j := by
  have h : sampleEsp.bytes (espOffset + j) =
      if espOffset + j < espOffset then 0 else espBytes (espOffset + j - espOffset) := rfl
  rw [h, if_neg (Nat.not_lt.mpr (Nat.le_add_right _ _)), Nat.add_sub_cancel_left]

def sampleFat : Fat16 := ⟨512, 4, 1, 17, 1, 18, 4091⟩

def sampleCurrent : FatFile := ⟨3, kernelSlot⟩

def sampleOld : FatFile := ⟨1539, kernelSlot⟩

theorem sampleEsp_open : Dev.value fatOpen sampleEsp = some sampleFat := by decide

theorem sampleEsp_sound : Sound sampleFat ∧ FullFat sampleFat ∧ HasEsp sampleEsp := by
  have he : HasEsp sampleEsp := show espOffset + espSectors * 512 ≤ 10 * 1024 * 1024 by decide
  obtain ⟨hs, hfat⟩ := fatOpen_value he sampleEsp_open
  exact ⟨hs, fullFat_of_sectors hs hfat (by decide), he⟩

theorem sampleEsp_fatEntry {c : Nat} (hc : 3 ≤ c) (hlt : c < 4093) : fatEntry sampleFat sampleEsp c = c + 1 := by
  have hoff : entryOff sampleFat c = espOffset + (512 + c * 2) := by
    rw [entryOff, sectorOff, show sampleFat.fatSector * sampleFat.bytesPerSector = 512 from rfl, Nat.add_assoc]
  have hbyte : ∀ j < 16 * 512, espBytes (512 + j) = espFat j := fun j hj => by
    rw [espBytes, if_neg (by omega), if_pos (by omega), Nat.add_sub_cancel_left]
  have hentry : ∀ j, j / 2 = c → espFat j = UInt8.ofNat (if j % 2 = 0 then (c + 1) % 256 else (c + 1) / 256) :=
    fun j hj => by
      have hne : c ≠ 2 := by omega
      simp only [espFat, hj, if_neg hne]
  have hlo := hentry (c * 2) (by omega)
  have hhi := hentry (c * 2 + 1) (by omega)
  rw [if_pos (by omega)] at hlo
  rw [if_neg (by omega)] at hhi
  rw [fatEntry, hoff, le16, Nat.add_assoc, sampleEsp_bytes, sampleEsp_bytes, Nat.add_assoc, hbyte _ (by omega),
    hbyte _ (by omega), hlo, hhi, UInt8.toNat_ofNat_of_lt' (by simp [UInt8.size]; omega),
    UInt8.toNat_ofNat_of_lt' (by simp [UInt8.size]; omega)]
  omega

theorem sampleEsp_slots : Dev.value (findSlots sampleFat) sampleEsp = some (sampleCurrent, sampleOld) := by
  obtain ⟨hs, hf, he⟩ := sampleEsp_sound
  have hboot : Dev.value (dirFind sampleFat 0 bootName) sampleEsp = some (some ⟨2, kernelSlot⟩) := by decide +kernel
  have hcur : Dev.value (dirFind sampleFat 2 kernelName) sampleEsp = some (some sampleCurrent) := by decide +kernel
  have hold : Dev.value (dirFind sampleFat 2 oldName) sampleEsp = some (some sampleOld) := by decide +kernel
  obtain ⟨used, hused, hlt⟩ := markLoop_ascending hs hf he [] (n := 1536) (c := 3) (by decide) (by decide)
    (fun x hx hx' => sampleEsp_fatEntry hx (by omega)) (List.forall_mem_nil _)
  obtain ⟨used', hused', -⟩ := markLoop_ascending hs hf he used (n := 1536) (c := 1539) (by decide) (by decide)
    (fun x hx hx' => sampleEsp_fatEntry (by omega) (by omega)) hlt
  have hap : Dev.value (slotsApart sampleFat sampleCurrent sampleOld) sampleEsp = true := by
    have h1 : Dev.value (markChain sampleFat sampleCurrent []) sampleEsp = some used := hused
    have h2 : Dev.value (markChain sampleFat sampleOld used) sampleEsp = some used' := hused'
    rw [slotsApart, Dev.value_bind (strict_markChain _ _).uses, h1]
    dsimp only
    rw [Dev.value_bind (strict_markChain _ _).uses, h2]
    rfl
  rw [findSlots, Dev.value_bind (strict_dirFind _ _).uses, hboot]
  dsimp only
  rw [Dev.value_bind (strict_dirFind _ _).uses, hcur]
  dsimp only
  rw [Dev.value_bind (strict_dirFind _ _).uses, hold]
  dsimp only
  rw [if_neg (by decide), Dev.value_bind (strict_slotsApart _ _).uses, hap]
  rfl

/-- Writing the current slot of this ESP with the byte 1. -/
theorem slot_write_isolated_sample : ∃ r d',
    (fileIo sampleFat sampleCurrent (some fun _ => 1)).exec (fun _ => .ok) sampleEsp = (some r, d') ∧
      (∀ i < sectorOff sampleFat sampleFat.dataSector, d'.bytes i = sampleEsp.bytes i) ∧
      ∃ p, Dev.value (fileIo sampleFat sampleCurrent none) d' = some p ∧ ∀ j < kernelSlot, p j = 1 := by
  obtain ⟨r, d', h, -, -, hmeta, -, hread, -⟩ := slot_write_isolated sampleEsp_sound.2.2 sampleEsp_open
    (by decide) sampleEsp_slots (.inl ⟨rfl, rfl⟩) (fun _ => 1) (σ := fun _ => .ok) fun _ => trivial
  exact ⟨r, d', h, hmeta, hread⟩

end Lorica.Proof.Update
