import Lorica.Impl.Update.Main

/-!
# lorica-update: reading and writing the clusters of a file

The clusters of a file are those that its chain gives (`chain`). `mark_chain` accepts a
chain only if it stays in the data area and does not come to a cluster twice
(`markLoop_value`), so that the clusters are disjoint ranges of the ESP
(`clusterOff_apart`), and the FAT that is read on the way is not written
(`fileLoop_write_wp`). `slot` is what a file holds.
-/

namespace Lorica.Proof.Update

open Lorica.Impl.Update Disk List

variable {fs : Fat16} {d d' : Disk} {c : Nat} {cs : List Nat} {buf : Buf} {faults : Bool}

/-! ## Layout -/

/-- What `fat_open` makes sure of. -/
structure Sound (fs : Fat16) : Prop where
  bps : fs.bytesPerSector = 512
  spc : 0 < fs.sectorsPerCluster
  fat : fs.fatSector < fs.rootSector
  root : fs.rootSector + fs.rootSectors = fs.dataSector
  data : fs.dataSector + fs.clusterCount * fs.sectorsPerCluster ≤ espSectors
  few : 4085 ≤ fs.clusterCount
  many : fs.clusterCount < 65525

/-- The number of sectors of a FAT, in the boot sector. -/
def fatSectors (d : Disk) : Nat := le16 d.bytes (espOffset + 22)

theorem fatOfBoot_sound {b : Buf} (h : fatOfBoot b = some fs) :
    Sound fs ∧ fs.fatSector + le16 b 22 ≤ fs.rootSector := by
  unfold fatOfBoot at h
  simp only at h
  split at h
  · cases h
  split at h
  · cases h
  rename_i hb
  split at h
  · cases h
  split at h
  · rename_i hlt hcc
    simp only [not_or, not_not] at hb
    obtain ⟨hbps, hspc, hfats, hsec, htot⟩ := hb
    cases h
    have hmul : le16 b 22 ≤ (b 16).toNat * le16 b 22 := Nat.le_mul_of_pos_left _ (by omega)
    refine ⟨⟨hbps, Nat.pos_of_ne_zero hspc, by simp only; omega, rfl, ?_, hcc.1, hcc.2⟩, by simp only; omega⟩
    simp only
    rw [htot] at hlt ⊢
    have := Nat.div_mul_le_self (espSectors - (le16 b 14 + (b 16).toNat * le16 b 22 + (le16 b 17 * 32 + 511) / 512))
      (b 13).toNat
    omega
  · cases h

theorem Sound.spc_le (h : Sound fs) : fs.sectorsPerCluster ≤ 4 := by
  have h1 : 4085 * fs.sectorsPerCluster ≤ fs.clusterCount * fs.sectorsPerCluster := Nat.mul_le_mul_right _ h.few
  have h2 := h.data
  simp only [espSectors] at h2
  omega

theorem clusterBytes_pos (h : Sound fs) : 0 < clusterBytes fs := by
  have := h.spc
  rw [clusterBytes]
  omega

theorem inRange_iff : inRange fs c = true ↔ 2 ≤ c ∧ c < fs.clusterCount + 2 := by
  simp [inRange]

theorem clusterOff_eq (h : Sound fs) :
    clusterOff fs c = espOffset + fs.dataSector * 512 + (c - 2) * clusterBytes fs := by
  rw [clusterOff, sectorOff, h.bps, clusterBytes]
  ring

/-- The clusters lie in the data area of the ESP. -/
theorem clusterOff_range (h : Sound fs) (hc : inRange fs c = true) :
    espOffset + fs.dataSector * 512 ≤ clusterOff fs c ∧
      clusterOff fs c + clusterBytes fs ≤ espOffset + espSectors * 512 := by
  obtain ⟨h2, hlt⟩ := inRange_iff.mp hc
  have hle : (c - 2 + 1) * clusterBytes fs ≤ fs.clusterCount * clusterBytes fs := Nat.mul_le_mul_right _ (by omega)
  have hdata := h.data
  have hcc : fs.clusterCount * clusterBytes fs = fs.clusterCount * fs.sectorsPerCluster * 512 := by
    rw [clusterBytes, Nat.mul_assoc]
  rw [Nat.add_mul] at hle
  rw [clusterOff_eq h]
  omega

/-- Different clusters do not overlap. -/
theorem clusterOff_apart (h : Sound fs) {c' : Nat} (hc : 2 ≤ c) (hlt : c < c') :
    clusterOff fs c + clusterBytes fs ≤ clusterOff fs c' := by
  have hle : (c - 2 + 1) * clusterBytes fs ≤ (c' - 2) * clusterBytes fs := Nat.mul_le_mul_right _ (by omega)
  rw [Nat.add_mul] at hle
  rw [clusterOff_eq h, clusterOff_eq h]
  omega

/-- The byte `i` of the disk lies in the cluster `c`. -/
def InCluster (fs : Fat16) (c i : Nat) : Prop := clusterOff fs c ≤ i ∧ i < clusterOff fs c + clusterBytes fs

variable {i n j done size left : Nat} {α : Type} {C : Op → Disk → Prop} {cs' : List Nat}

theorem InCluster.unique (h : Sound fs) {c' : Nat} (hc : inRange fs c = true) (hc' : inRange fs c' = true)
    (hi : InCluster fs c i) (hi' : InCluster fs c' i) : c = c' := by
  obtain ⟨h2, -⟩ := inRange_iff.mp hc
  obtain ⟨h2', -⟩ := inRange_iff.mp hc'
  obtain ⟨hi1, hi2⟩ := hi
  obtain ⟨hi1', hi2'⟩ := hi'
  rcases lt_trichotomy c c' with hlt | heq | hlt
  · have := clusterOff_apart h h2 hlt
    omega
  · exact heq
  · have := clusterOff_apart h h2' hlt
    omega

/-- The data area comes after all else. -/
theorem InCluster.ge (h : Sound fs) (hc : inRange fs c = true) (hi : InCluster fs c i) :
    espOffset + fs.dataSector * 512 ≤ i :=
  le_trans (clusterOff_range h hc).1 hi.1

/-! ## The FAT -/

/-- The entry of a cluster. -/
def fatEntry (fs : Fat16) (d : Disk) (c : Nat) : Nat := le16 d.bytes (entryOff fs c)

/-- The FAT has an entry for each cluster. -/
def FullFat (fs : Fat16) : Prop :=
  ∀ c, inRange fs c = true → entryOff fs c + 2 ≤ sectorOff fs fs.rootSector

/-- The ESP is on the disk. -/
def HasEsp (d : Disk) : Prop := espOffset + espSectors * 512 ≤ d.size

theorem entryOff_lt (hs : Sound fs) (hf : FullFat fs) (hc : inRange fs c = true) :
    entryOff fs c + 2 ≤ espOffset + fs.dataSector * 512 := by
  have h := hf c hc
  have hroot : fs.rootSector ≤ fs.dataSector := hs.root ▸ Nat.le_add_right _ _
  rw [sectorOff, hs.bps] at h
  exact le_trans h (Nat.add_le_add_left (Nat.mul_le_mul_right 512 hroot) espOffset)

theorem Sound.data_le (hs : Sound fs) : fs.dataSector ≤ espSectors := by
  have := hs.data
  omega

theorem le16_congr {a b : Buf} {o o' : Nat} (h0 : a o = b o') (h1 : a (o + 1) = b (o' + 1)) : le16 a o = le16 b o' := by
  rw [le16, le16, h0, h1]

theorem strict_fatNext : Dev.Strict none (fatNext fs c) := by
  refine .bind .read rfl fun r => ?_
  split <;> exact .pure _ _

theorem fatNext_value (hs : Sound fs) (hf : FullFat fs) (he : HasEsp d) (hc : inRange fs c = true) :
    Dev.value (fatNext fs c) d = some (fatEntry fs d c) := by
  have hin : entryOff fs c + 2 ≤ d.size :=
    calc
      entryOff fs c + 2 ≤ espOffset + fs.dataSector * 512 := entryOff_lt hs hf hc
      _ ≤ espOffset + espSectors * 512 := Nat.add_le_add_left (Nat.mul_le_mul_right 512 hs.data_le) espOffset
      _ ≤ d.size := he
  rw [fatNext, Dev.value_bind Dev.Strict.read.uses, Dev.value_read, if_pos (.inr hin)]
  exact congrArg some (le16_congr (slice_of_lt (by omega)) (slice_of_lt (by omega)))

theorem fatNext_wp {f : Option Nat → Dev α} {Q : α → Disk → Prop} (hs : Sound fs)
    (hf : FullFat fs) (he : HasEsp d) (hc : inRange fs c = true) (hC : ∀ off len, C (.read off len) d)
    (hsome : Dev.WP faults (f (some (fatEntry fs d c))) d Q C) (hnone : faults = true → Dev.WP faults (f none) d Q C) :
    Dev.WP faults (fatNext fs c >>= f) d Q C := by
  refine WP.seq (strict_fatNext.wp hC) (fun r d' h => ?_)
  rw [fatNext_value hs hf he hc] at h
  obtain ⟨rfl, rfl | ⟨rfl, hfault⟩⟩ := h
  · exact hsome
  · exact hnone hfault

/-! ## Chains -/

/-- The first `n` clusters of the chain from `c`. -/
def chain (fs : Fat16) (d : Disk) : Nat → Nat → List Nat
  | 0, _ => []
  | n + 1, c => c :: chain fs d n (fatEntry fs d c)

/-- A chain that stays in the data area and comes to no cluster twice. -/
structure Proper (fs : Fat16) (d : Disk) (n c : Nat) : Prop where
  range : ∀ x ∈ chain fs d n c, inRange fs x = true
  nodup : (chain fs d n c).Nodup

theorem length_chain (n c : Nat) : (chain fs d n c).length = n := by
  induction n generalizing c with
  | zero => rfl
  | succ n ih => rw [chain, length_cons, ih]

theorem Proper.head (h : Proper fs d (n + 1) c) : inRange fs c = true := h.range c mem_cons_self

theorem Proper.tail (h : Proper fs d (n + 1) c) : Proper fs d n (fatEntry fs d c) :=
  ⟨fun x hx => h.range x (mem_cons_of_mem _ hx), (nodup_cons.mp h.nodup).2⟩

/-- An entry within a chain is no end of file. -/
theorem inRange_lt (hs : Sound fs) (hc : inRange fs c = true) : c < 0xfff8 := by
  have := (inRange_iff.mp hc).2
  have := hs.many
  omega

theorem Proper.next_lt (hs : Sound fs) (h : Proper fs d (n + 1) c) (hn : n ≠ 0) : fatEntry fs d c < 0xfff8 := by
  obtain ⟨m, rfl⟩ := Nat.exists_eq_succ_of_ne_zero hn
  exact inRange_lt hs h.tail.head

theorem Proper.length_le (h : Proper fs d n c) : n ≤ fs.clusterCount := by
  have hsub : chain fs d n c ⊆ range' 2 fs.clusterCount := fun x hx => by
    have := inRange_iff.mp (h.range x hx)
    rw [mem_range'_1]
    omega
  have := (h.nodup.subperm hsub).length_le
  rwa [length_chain, length_range'] at this

theorem chain_congr (h : ∀ c, inRange fs c = true → fatEntry fs d' c = fatEntry fs d c)
    (hr : ∀ x ∈ chain fs d n c, inRange fs x = true) : chain fs d' n c = chain fs d n c := by
  induction n generalizing c with
  | zero => rfl
  | succ n ih =>
    rw [chain, chain, h c (hr c mem_cons_self), ih fun x hx => hr x (mem_cons_of_mem _ hx)]

theorem strict_markLoop (n c : Nat) (used : List Nat) : Dev.Strict none (markLoop fs n c used) := by
  induction n generalizing c used with
  | zero => exact .pure _ _
  | succ n ih =>
    rw [markLoop]
    split
    · exact .pure _ _
    split
    · exact .pure _ _
    refine .bind strict_fatNext rfl fun r => ?_
    split
    · exact .pure _ _
    split
    · exact .pure _ _
    · exact ih _ _

/-- A chain that `mark_chain` accepts. -/
theorem markLoop_value (hs : Sound fs) (hf : FullFat fs) (he : HasEsp d) {used used' : List Nat}
    (h : Dev.value (markLoop fs n c used) d = some used') :
    Proper fs d n c ∧ (∀ x ∈ chain fs d n c, x ∉ used) ∧ ∀ x, x ∈ used' ↔ x ∈ used ∨ x ∈ chain fs d n c := by
  induction n generalizing c used with
  | zero =>
    cases h
    exact ⟨⟨forall_mem_nil _, nodup_nil⟩, forall_mem_nil _, fun x => by simp [chain]⟩
  | succ n ih =>
    rw [markLoop] at h
    by_cases hbad : inRange fs c = false ∨ c ∈ used
    · rw [if_pos hbad] at h
      cases h
    rw [if_neg hbad] at h
    rw [not_or, Bool.not_eq_false] at hbad
    by_cases hn : n = 0
    · subst hn
      cases h
      refine ⟨⟨fun x hx => ?_, nodup_singleton c⟩, fun x hx => ?_, fun x => ?_⟩
      · exact mem_singleton.mp hx ▸ hbad.1
      · exact mem_singleton.mp hx ▸ hbad.2
      · rw [mem_cons, or_comm]
        exact or_congr_right mem_singleton.symm
    · rw [if_neg hn, Dev.value_bind strict_fatNext.uses, fatNext_value hs hf he hbad.1] at h
      by_cases hend : 0xfff8 ≤ fatEntry fs d c
      · simp only [if_pos hend] at h
        cases h
      simp only [if_neg hend] at h
      obtain ⟨hp, hnew, hmem⟩ := ih h
      have hnot : c ∉ chain fs d n (fatEntry fs d c) := fun hc => hnew c hc mem_cons_self
      refine ⟨⟨fun x hx => ?_, nodup_cons.mpr ⟨hnot, hp.nodup⟩⟩, fun x hx => ?_, fun x => ?_⟩
      · rcases mem_cons.mp hx with rfl | hx
        · exact hbad.1
        · exact hp.range x hx
      · rcases mem_cons.mp hx with rfl | hx
        · exact hbad.2
        · exact fun hu => hnew x hx (mem_cons_of_mem _ hu)
      · rw [hmem, mem_cons, chain, mem_cons]
        tauto

/-! ## Files -/

/-- What the clusters `cs` hold, one after the other. -/
def slot (fs : Fat16) (cs : List Nat) (d : Disk) : Buf := fun j =>
  d.bytes (clusterOff fs (cs.getD (j / clusterBytes fs) 0) + j % clusterBytes fs)

theorem slot_cons_lt (hj : j < clusterBytes fs) : slot fs (c :: cs) d j = d.bytes (clusterOff fs c + j) := by
  rw [slot, Nat.div_eq_of_lt hj, Nat.mod_eq_of_lt hj]
  rfl

theorem slot_cons_ge (h : Sound fs) (hj : clusterBytes fs ≤ j) :
    slot fs (c :: cs) d j = slot fs cs d (j - clusterBytes fs) := by
  rw [slot, Nat.div_eq_sub_div (clusterBytes_pos h) hj, Nat.mod_eq_sub_mod hj]
  rfl

/-- Only bytes in the clusters `cs` have changed. -/
structure OnlyIn (fs : Fat16) (cs : List Nat) (d d' : Disk) : Prop where
  size : d'.size = d.size
  bytes : ∀ i, (∀ c ∈ cs, ¬ InCluster fs c i) → d'.bytes i = d.bytes i

theorem OnlyIn.refl (cs : List Nat) (d : Disk) : OnlyIn fs cs d d := ⟨rfl, fun _ _ => rfl⟩

theorem OnlyIn.mono (h : OnlyIn fs cs d d') (hsub : ∀ c ∈ cs, c ∈ cs') : OnlyIn fs cs' d d' :=
  ⟨h.size, fun i hi => h.bytes i fun c hc => hi c (hsub c hc)⟩

theorem OnlyIn.trans {d'' : Disk} (h : OnlyIn fs cs d d') (h' : OnlyIn fs cs' d' d'') :
    OnlyIn fs (cs ++ cs') d d'' where
  size := h'.size.trans h.size
  bytes i hi := (h'.bytes i fun c hc => hi c (mem_append_right _ hc)).trans
    (h.bytes i fun c hc => hi c (mem_append_left _ hc))

theorem OnlyIn.overwrite {k : Nat} (hk : k ≤ clusterBytes fs) :
    OnlyIn fs [c] d (d.overwrite (clusterOff fs c) k buf) where
  size := rfl
  bytes i hi := by
    have := hi c mem_cons_self
    rw [InCluster] at this
    exact overwrite_out (by omega)

theorem OnlyIn.hasEsp (h : OnlyIn fs cs d d') (he : HasEsp d) : HasEsp d' := by
  rw [HasEsp, h.size]
  exact he

/-- What lies before the data area is not changed. -/
theorem OnlyIn.before (hs : Sound fs) (hr : ∀ c ∈ cs, inRange fs c = true) (h : OnlyIn fs cs d d')
    (hi : i < espOffset + fs.dataSector * 512) : d'.bytes i = d.bytes i :=
  h.bytes i fun c hc hin => absurd (hin.ge hs (hr c hc)) (by omega)

theorem OnlyIn.fatEntry (hs : Sound fs) (hf : FullFat fs) (hr : ∀ c ∈ cs, inRange fs c = true)
    (h : OnlyIn fs cs d d') (hc : inRange fs c = true) : fatEntry fs d' c = fatEntry fs d c := by
  have := entryOff_lt hs hf hc
  exact le16_congr (h.before hs hr (by omega)) (h.before hs hr (by omega))

/-- Files with other clusters hold the same. -/
theorem OnlyIn.slot (hs : Sound fs) (hr : ∀ c ∈ cs, inRange fs c = true) (h : OnlyIn fs cs d d')
    (hr' : ∀ c ∈ cs', inRange fs c = true) (hdis : ∀ c ∈ cs', c ∉ cs)
    (hj : j < cs'.length * clusterBytes fs) : slot fs cs' d' j = slot fs cs' d j := by
  have hlt : j / clusterBytes fs < cs'.length := Nat.div_lt_of_lt_mul (by rwa [Nat.mul_comm])
  have hmem : cs'.getD (j / clusterBytes fs) 0 ∈ cs' := by
    rw [getD_eq_getElem _ _ hlt]
    exact getElem_mem hlt
  have hmod := Nat.mod_lt j (clusterBytes_pos hs)
  refine h.bytes _ fun c hc hin => hdis _ hmem ?_
  have hin' : InCluster fs (cs'.getD (j / clusterBytes fs) 0)
      (clusterOff fs (cs'.getD (j / clusterBytes fs) 0) + j % clusterBytes fs) :=
    ⟨Nat.le_add_right _ _, Nat.add_lt_add_left hmod _⟩
  exact (hin'.unique hs (hr' _ hmem) (hr c hc) hin) ▸ hc

theorem Proper.onlyIn (hs : Sound fs) (hf : FullFat fs)
    (hr : ∀ c ∈ cs, inRange fs c = true) (h : OnlyIn fs cs d d') (hp : Proper fs d n c) :
    chain fs d' n c = chain fs d n c ∧ Proper fs d' n c := by
  have heq : chain fs d' n c = chain fs d n c := chain_congr (fun c hc => h.fatEntry hs hf hr hc) hp.range
  exact ⟨heq, heq ▸ hp.range, heq ▸ hp.nodup⟩

theorem chunkIo_read_wp {f : Option Buf → Dev α} {Q : α → Disk → Prop}
    {off : Nat} (hin : off + n ≤ d.size) (hC : C (.read off n) d)
    (hsome : Dev.WP faults (f (some (d.slice off n))) d Q C) (hnone : faults = true → Dev.WP faults (f none) d Q C) :
    Dev.WP faults (chunkIo none off done n >>= f) d Q C :=
  Dev.WP.read hC (fun _ => hsome) fun h => hnone (h.resolve_left fun h => h (.inr hin))

theorem chunkIo_write_wp {f : Option Buf → Dev α} {Q : α → Disk → Prop}
    {off : Nat} (hin : off + n ≤ d.size) (hC : C (.write off n fun i => buf (done + i)) d)
    (hok : Dev.WP faults (f (some fun i => buf (done + i))) (d.overwrite off n fun i => buf (done + i)) Q C)
    (hfail : ∀ k ≤ n, faults = true → Dev.WP faults (f none) (d.overwrite off k fun i => buf (done + i)) Q C) :
    Dev.WP faults (chunkIo (some buf) off done n >>= f) d Q C := by
  refine Dev.WP.write hC (fun _ => hok) fun k h => ?_
  exact hfail _ (le_trans (Nat.min_le_right _ _) (Nat.min_le_left _ _)) (h.resolve_left fun h => h (.inr hin))

/-- There is nothing left to do at the end of a file. -/
theorem fileLoop_end {b : Option Buf} (h : size ≤ done) :
    fileLoop fs size b left c done = pure (some fun _ => 0) := by
  cases left with
  | zero => rw [fileLoop, if_pos h]
  | succ left => rw [fileLoop, if_pos h]

theorem fileLoop_succ (hs : Sound fs) {b : Option Buf} (hc : inRange fs c = true)
    (hsize : size = done + (n + 1) * clusterBytes fs) : fileLoop fs size b (left + 1) c done =
      fileRound fs size b (fun next => fileLoop fs size b left next (done + clusterBytes fs)) c done
        (clusterBytes fs) := by
  have hpos := clusterBytes_pos hs
  have hmul : (n + 1) * clusterBytes fs = n * clusterBytes fs + clusterBytes fs := by rw [Nat.add_mul, Nat.one_mul]
  have hmin : min (size - done) (clusterBytes fs) = clusterBytes fs := Nat.min_eq_right (by omega)
  rw [fileLoop, if_neg (by omega), if_neg (by rw [hc]; decide), hmin]

/-- The file ends with the last cluster of its chain. -/
theorem size_eq_iff (hs : Sound fs) (hsize : size = done + (n + 1) * clusterBytes fs) :
    done + clusterBytes fs = size ↔ n = 0 := by
  have hpos := clusterBytes_pos hs
  rw [Nat.add_mul] at hsize
  constructor
  · intro h
    have hz : n * clusterBytes fs = 0 := by omega
    exact (Nat.mul_eq_zero.mp hz).resolve_right (by omega)
  · rintro rfl
    omega

/-- The first `n` bytes of `b`, or nothing after a fault. -/
def Gives (faults : Bool) (n : Nat) (b : Buf) (r : Option Buf) : Prop :=
  (∃ p, r = some p ∧ ∀ j < n, p j = b j) ∨ r = none ∧ faults = true

/-- A round gives the bytes of its cluster, and the other rounds the rest. -/
theorem Gives.join (hs : Sound fs) {first : Buf} {r : Option Buf}
    (hfirst : ∀ j < clusterBytes fs, first j = slot fs (c :: cs) d j)
    (h : Gives faults (n * clusterBytes fs) (slot fs cs d) r) :
    Gives faults ((n + 1) * clusterBytes fs) (slot fs (c :: cs) d) (r.map (joinBufs (clusterBytes fs) first)) := by
  rcases h with ⟨rest, rfl, hrest⟩ | ⟨rfl, hfault⟩
  · refine .inl ⟨_, rfl, fun j hj => ?_⟩
    rw [Nat.add_mul] at hj
    rw [joinBufs]
    split
    · exact hfirst j (by assumption)
    · rw [slot_cons_ge hs (by omega)]
      exact hrest _ (by omega)
  · exact .inr ⟨rfl, hfault⟩

/-- Reading the clusters of a chain. -/
theorem fileLoop_read_wp (hs : Sound fs) (hf : FullFat fs) (he : HasEsp d)
    (hC : ∀ off len, C (.read off len) d) (hp : Proper fs d n c) (hn : n ≤ left)
    (hsize : size = done + n * clusterBytes fs) : Dev.WP faults (fileLoop fs size none left c done) d
      (fun r d' => d' = d ∧ Gives faults (n * clusterBytes fs) (slot fs (chain fs d n c) d) r) C := by
  induction n generalizing left c done with
  | zero =>
    rw [fileLoop_end (by omega)]
    refine ⟨rfl, .inl ⟨_, rfl, fun j hj => ?_⟩⟩
    rw [Nat.zero_mul] at hj
    exact absurd hj (Nat.not_lt_zero j)
  | succ n ih =>
    obtain ⟨left, rfl⟩ := Nat.exists_eq_add_of_lt hn
    have hin : clusterOff fs c + clusterBytes fs ≤ d.size := le_trans (clusterOff_range hs hp.head).2 he
    have hfirst : ∀ j < clusterBytes fs,
        d.slice (clusterOff fs c) (clusterBytes fs) j = slot fs (chain fs d (n + 1) c) d j := fun j hj => by
      rw [slice_of_lt hj, chain, slot_cons_lt hj]
    rw [fileLoop_succ hs hp.head hsize]
    refine chunkIo_read_wp hin (hC _ _) ?_ fun h => ⟨rfl, .inr ⟨rfl, h⟩⟩
    dsimp only
    by_cases hlast : n = 0
    · subst hlast
      rw [if_pos ((size_eq_iff hs hsize).mpr rfl)]
      exact ⟨rfl, .inl ⟨_, rfl, fun j hj => hfirst j (by omega)⟩⟩
    rw [if_neg fun h => hlast ((size_eq_iff hs hsize).mp h)]
    refine fatNext_wp hs hf he hp.head hC ?_ fun h => ⟨rfl, .inr ⟨rfl, h⟩⟩
    dsimp only
    rw [if_neg (Nat.not_le.mpr (hp.next_lt hs hlast))]
    refine WP.seq (ih hp.tail (by omega) (by rw [hsize, Nat.add_mul]; omega)) (fun r d' h => ?_)
    obtain ⟨rfl, hrest⟩ := h
    exact ⟨rfl, hrest.join hs hfirst⟩

/-- Writing the clusters of a chain, which can end anywhere: only these are changed, and
if it ends well, the file holds the buffer. -/
theorem fileLoop_write_wp (hs : Sound fs) (hf : FullFat fs) (he : HasEsp d)
    (hp : Proper fs d n c) (hn : n ≤ left) (hsize : size = done + n * clusterBytes fs) :
    Dev.WP faults (fileLoop fs size (some buf) left c done) d (fun r d' => OnlyIn fs (chain fs d n c) d d' ∧
        ((∀ j < n * clusterBytes fs, slot fs (chain fs d n c) d' j = buf (done + j)) ∧ r ≠ none ∨
          r = none ∧ faults = true)) (fun o d' => ∀ k, OnlyIn fs (chain fs d n c) d (tear o k d')) := by
  induction n generalizing left c done d with
  | zero =>
    rw [fileLoop_end (by omega)]
    refine ⟨.refl _ d, .inl ⟨fun j hj => ?_, Option.some_ne_none _⟩⟩
    rw [Nat.zero_mul] at hj
    exact absurd hj (Nat.not_lt_zero j)
  | succ n ih =>
    obtain ⟨left, rfl⟩ := Nat.exists_eq_add_of_lt hn
    have hin : clusterOff fs c + clusterBytes fs ≤ d.size := le_trans (clusterOff_range hs hp.head).2 he
    have hr : ∀ x ∈ [c], inRange fs x = true := forall_mem_singleton.mpr hp.head
    have hcut : ∀ k ≤ clusterBytes fs, OnlyIn fs (chain fs d (n + 1) c) d
        (d.overwrite (clusterOff fs c) k fun i => buf (done + i)) := fun k hk =>
      (OnlyIn.overwrite hk).mono fun x hx => mem_singleton.mp hx ▸ mem_cons_self
    have hfit : ∀ k, min k (d.fit (clusterOff fs c) (clusterBytes fs)) ≤ clusterBytes fs := fun k =>
      le_trans (Nat.min_le_right _ _) (Nat.min_le_left _ _)
    rw [fileLoop_succ hs hp.head hsize]
    refine chunkIo_write_wp hin (fun k => hcut _ (hfit k)) ?_ fun k hk h => ⟨hcut k hk, .inr ⟨rfl, h⟩⟩
    -- the disk after this round, with the same chain
    have hone : OnlyIn fs [c] d (d.overwrite (clusterOff fs c) (clusterBytes fs) fun i => buf (done + i)) :=
      .overwrite (le_refl _)
    have hwrote : ∀ j < clusterBytes fs,
        (d.overwrite (clusterOff fs c) (clusterBytes fs) fun i => buf (done + i)).bytes (clusterOff fs c + j) =
          buf (done + j) := fun j hj => by
      rw [overwrite_in (by omega) (by omega), Nat.add_sub_cancel_left]
    generalize d.overwrite (clusterOff fs c) (clusterBytes fs) (fun i => buf (done + i)) = d1 at hone hwrote
    obtain ⟨hchain, hp1⟩ := hp.onlyIn hs hf hr hone
    dsimp only
    by_cases hlast : n = 0
    · subst hlast
      rw [if_pos ((size_eq_iff hs hsize).mpr rfl)]
      refine ⟨hone, .inl ⟨fun j hj => ?_, Option.some_ne_none _⟩⟩
      rw [chain, slot_cons_lt (by omega)]
      exact hwrote j (by omega)
    rw [if_neg fun h => hlast ((size_eq_iff hs hsize).mp h)]
    refine fatNext_wp hs hf (hone.hasEsp he) hp.head (fun _ _ k => hone.mono fun x hx => ?_) ?_
      fun h => ⟨?_, .inr ⟨rfl, h⟩⟩
    · exact mem_singleton.mp hx ▸ mem_cons_self
    · dsimp only
      rw [if_neg (Nat.not_le.mpr (hp1.next_lt hs hlast)), ← hchain, chain]
      have hrest : ∀ d', OnlyIn fs (chain fs d1 n (fatEntry fs d1 c)) d1 d' →
          OnlyIn fs (c :: chain fs d1 n (fatEntry fs d1 c)) d d' := fun d' h => hone.trans h
      refine WP.bind (ih (hone.hasEsp he) hp1.tail (by omega) (by rw [hsize, Nat.add_mul]; omega))
        (fun r d' h => ⟨hrest d' h.1, ?_⟩) fun _ d' h k => hrest _ (h k)
      obtain ⟨honly, ⟨hslot, hne⟩ | ⟨rfl, hfault⟩⟩ := h
      · refine .inl ⟨fun j hj => ?_, by rwa [ne_eq, Option.map_eq_none_iff]⟩
        rw [Nat.add_mul] at hj
        by_cases hfirst : j < clusterBytes fs
        · -- the first cluster is not one of the others
          have hkeep : slot fs [c] d' j = slot fs [c] d1 j := by
            refine honly.slot hs hp1.tail.range (forall_mem_singleton.mpr hp.head) ?_ (by simpa using hfirst)
            exact forall_mem_singleton.mpr (nodup_cons.mp hp1.nodup).1
          rw [slot_cons_lt hfirst, slot_cons_lt hfirst] at hkeep
          rw [slot_cons_lt hfirst, hkeep, hwrote j hfirst]
        · rw [slot_cons_ge hs (by omega), hslot _ (by omega)]
          congr 1
          omega
      · exact .inr ⟨rfl, hfault⟩
    · exact hone.mono fun x hx => mem_singleton.mp hx ▸ mem_cons_self

end Lorica.Proof.Update
