import Lorica.Framework.Crc
import Lorica.Impl.Install.Gpt
import Lorica.Proof.Install.Blkio

/-!
# The partition table

`install_write_gpt` writes its blocks in a fixed order (`installWriteGpt_eq`), and when all
writes are acknowledged they make a valid table (`ValidTable`), unless the disk has fewer blocks
than the headers and the entries at one end need: then the positions wrap around, the test of
the size passes, and blocks outside the disk are written (`gpt_valid_iff`).

* `crc32Calc_eq`, `crc32_residue`: the table driven checksum is that of the shift register;
* `contents_of_mem`: what a block holds after writes to different blocks;
* `validTable`: the table on a disk that is large enough.
-/

namespace Lorica.Proof.Install.Gpt

open Lorica.Impl.Install Lorica.Impl.Install.Gpt List

/-! ## Checksums -/

/-- CRC-32: the bits of each byte enter the register from the lowest on; it starts with ones,
and all its bits are turned over at the end. -/
def crc32 (b : Buf) (len : Nat) : Nat :=
  (((range len).foldl
    (fun c (i : Nat) => Crc.feedBits 0xEDB88320 (fun k => (b i).toNat.testBit k) 8 c) (0xFFFFFFFF : BitVec 32)) ^^^
      0xFFFFFFFF).toNat

theorem shifts_succ {w : Nat} (poly : BitVec w) (n : Nat) (c : BitVec w) :
    Crc.shifts poly (n + 1) c = Crc.shifts poly n (Crc.shift poly c) := by
  induction n with
  | zero => rfl
  | succ n ih => rw [Crc.shifts, ih, Crc.shifts]

theorem and_one_eq (c : BitVec 32) : (c &&& 1 = 1) ↔ c.getLsbD 0 = true := by
  have h : c &&& 1 = BitVec.setWidth 32 (BitVec.ofBool (c.getLsbD 0)) := BitVec.and_one_eq_setWidth_ofBool_getLsbD
  rw [h]
  cases c.getLsbD 0 <;> decide

theorem crc32Entry_eq (n : Nat) (c : BitVec 32) : crc32Entry n c = Crc.shifts crc32Poly n c := by
  induction n generalizing c with
  | zero => rfl
  | succ n ih =>
    rw [crc32Entry, ih, shifts_succ, Crc.shift]
    simp only [and_one_eq]

theorem number_byte (b : UInt8) : Crc.number (fun k => b.toNat.testBit k) 8 = b.toBitVec.setWidth 32 := by
  apply BitVec.eq_of_getLsbD_eq
  intro i hi
  rw [Crc.getLsbD_number, BitVec.getLsbD_setWidth, BitVec.getLsbD]
  by_cases h8 : i < 8
  · simp [hi, h8]
  · have : b.toNat.testBit i = false :=
      Nat.testBit_lt_two_pow (lt_of_lt_of_le b.toNat_lt (Nat.pow_le_pow_right (by decide) (by omega)))
    simp [this]

/-- One byte from the table is eight bits of the register. -/
theorem crc32Byte_eq (crc : BitVec 32) (b : UInt8) :
    crc32Byte crc b = Crc.feedBits crc32Poly (fun k => b.toNat.testBit k) 8 crc := by
  have hb : (b.toBitVec.setWidth 32) >>> 8 = 0#32 := by
    apply BitVec.eq_of_getLsbD_eq
    intro i _
    simp
  have hmask : BitVec.ofNat 32 (2 ^ 8 - 1) = 0xFF := by decide
  rw [Crc.feedBits_eq _ _ (by decide), number_byte, Crc.shifts_low, hmask, BitVec.ushiftRight_xor_distrib, hb,
    BitVec.xor_zero, crc32Byte, crc32Table, crc32Entry_eq, BitVec.xor_comm]

theorem crc32Calc_eq (b : Buf) (len : Nat) : crc32Calc b len = crc32 b len := by
  unfold crc32Calc crc32
  simp only [crc32Byte_eq]
  rfl

/-- The register after the bytes have entered. -/
def register (b : Buf) (len : Nat) : BitVec 32 :=
  (range len).foldl (fun c (i : Nat) => Crc.feedBits 0xEDB88320 (fun k => (b i).toNat.testBit k) 8 c) 0xFFFFFFFF

theorem crc32_eq (b : Buf) (len : Nat) : crc32 b len = (register b len ^^^ 0xFFFFFFFF).toNat := rfl

theorem register_succ (b : Buf) (len : Nat) :
    register b (len + 1) = Crc.feedBits 0xEDB88320 (fun k => (b len).toNat.testBit k) 8 (register b len) := by
  rw [register, range_succ, foldl_append]
  rfl

theorem register_congr {b b' : Buf} {len : Nat} (h : ∀ i < len, b i = b' i) : register b len = register b' len := by
  refine foldl_ext _ _ _ fun c i hi => ?_
  rw [h i (mem_range.mp hi)]

theorem crc32_congr {b b' : Buf} {len : Nat} (h : ∀ i < len, b i = b' i) : crc32 b len = crc32 b' len := by
  rw [crc32_eq, crc32_eq, register_congr h]

theorem crc32_lt (b : Buf) (len : Nat) : crc32 b len < 256 ^ 4 := BitVec.isLt _

/-- The bits of a byte of a number. -/
theorem testBit_byte (v i : Nat) {k : Nat} (hk : k < 8) :
    (UInt8.ofNat (v / 256 ^ i)).toNat.testBit k = v.testBit (8 * i + k) := by
  have hpow : 256 ^ i = 2 ^ (8 * i) := by rw [Nat.pow_mul]
  rw [UInt8.toNat_ofNat', Nat.testBit_mod_two_pow, hpow, Nat.testBit_div_two_pow]
  simp [hk, Nat.add_comm]

/-- The table driven checksum is that of the shift register, and a string with its checksum behind
it has always the same. -/
theorem crc32_residue (b : Buf) (len : Nat) :
    crc32Calc b len = crc32 b len ∧ crc32Calc (putLe b len 4 (crc32Calc b len)) (len + 4) = 0x2144DF1C := by
  refine ⟨crc32Calc_eq b len, ?_⟩
  rw [crc32Calc_eq b, crc32_eq]
  generalize hc : register b len = c
  generalize hb' : putLe b len 4 (c ^^^ 0xFFFFFFFF).toNat = b'
  have hmsg : register b' len = c := by
    rw [← hc, ← hb']
    exact register_congr fun i hi => putLe_out (.inl hi)
  have hbyte : ∀ i < 4, register b' (len + i + 1) =
      Crc.feedBits 0xEDB88320 (fun k => (c ^^^ 0xFFFFFFFF).getLsbD (8 * i + k)) 8 (register b' (len + i)) := by
    intro i hi
    rw [register_succ]
    refine Crc.feedBits_congr _ (fun k hk => ?_) _
    rw [← hb', putLe_in hi, testBit_byte _ _ hk]
    rfl
  -- the four bytes are 32 bits that enter one after the other
  have hall : Crc.feedBits 0xEDB88320 (c ^^^ 0xFFFFFFFF).getLsbD 32 c = Crc.shifts 0xEDB88320 32 0xFFFFFFFF :=
    Crc.feedBits_self _ c _
  rw [Crc.feedBits_add _ _ 24 8, Crc.feedBits_add _ _ 16 8, Crc.feedBits_add _ _ 8 8] at hall
  have h1 := hbyte 0 (by decide)
  simp only [Nat.mul_zero, Nat.zero_add, Nat.add_zero, hmsg] at h1
  have hend : register b' (len + 4) = Crc.shifts 0xEDB88320 32 0xFFFFFFFF := by
    rw [hbyte 3 (by decide), hbyte 2 (by decide), hbyte 1 (by decide), h1, ← hall]
  rw [crc32Calc_eq, crc32_eq, hend]
  decide

/-! ## Writing a list of blocks -/

section

variable {fixed : Bytes → Option Buf} {devname : Bytes}

/-- One block after the other, until a write fails. -/
def writeEach (devname : Bytes) : List (Nat × Buf) → Prog (Blkio.machine fixed) Bool
  | [] => pure true
  | w :: ws => do
    if ← Blkio.write devname w.1 1 w.2 then writeEach devname ws else pure false

theorem bind_ite_pure (p : Prog (Blkio.machine fixed) Bool) :
    (p >>= fun ok => if ok = true then pure true else pure false) = p := by
  induction p with
  | pure ok => cases ok <;> rfl
  | op o k ih => exact congrArg (Prog.op o) (funext ih)

theorem writeEach_singleton (w : Nat × Buf) :
    (writeEach devname [w] : Prog (Blkio.machine fixed) Bool) = Blkio.write devname w.1 1 w.2 := bind_ite_pure _

theorem writeEach_append (ws ws' : List (Nat × Buf)) :
    (writeEach devname (ws ++ ws') : Prog (Blkio.machine fixed) Bool) =
      writeEach devname ws >>= fun ok => if ok = true then writeEach devname ws' else pure false := by
  induction ws with
  | nil => rfl
  | cons w ws ih =>
    rw [cons_append, writeEach, writeEach, Prog.bind_assoc]
    congr 1
    funext ok
    cases ok with
    | false => rfl
    | true => exact ih

/-- The blocks of the entries, from the `i`-th on. -/
def entryWrites (entries : Buf) (blockSize start : Nat) : Nat → Nat → List (Nat × Buf)
  | _, 0 => []
  | i, n + 1 =>
    (add64 start i, blockBuf (fun k => entries (i * blockSize + k)) (entryCopy (i * blockSize) blockSize) blockSize) ::
      entryWrites entries blockSize start (i + 1) n

theorem writeEntries_eq (entries : Buf) (blockSize start i n : Nat) :
    (writeEntries devname entries blockSize start i n : Prog (Blkio.machine fixed) Bool) =
      writeEach devname (entryWrites entries blockSize start i n) := by
  induction n generalizing i with
  | zero => rfl
  | succ n ih =>
    rw [writeEntries, entryWrites, writeEach]
    congr 1
    funext ok
    cases ok with
    | false => rfl
    | true => exact ih (i + 1)

/-- All that `install_write_gpt` writes, in order. -/
def gptWrites (l : GptLayout) (diskBlocks blockSize : Nat) : List (Nat × Buf) :=
  let entryCrc := crc32Calc (gptEntries l) entryBytes
  [(0, blockBuf (protectiveMbr diskBlocks) 512 blockSize)] ++
    ([(1, blockBuf (primaryHeader l entryCrc) 512 blockSize)] ++
      (entryWrites (gptEntries l) blockSize 2 0 l.entryLbas ++
        (entryWrites (gptEntries l) blockSize (sub64 l.lastLba l.entryLbas) 0 l.entryLbas ++
          [(l.lastLba, blockBuf (backupHeader l entryCrc) 512 blockSize)])))

theorem installWriteGpt_eq (diskBlocks blockSize : Nat) :
    (installWriteGpt devname diskBlocks blockSize : Prog (Blkio.machine fixed) Bool) =
      if (gptLayout diskBlocks blockSize).rootEnd ≤ (gptLayout diskBlocks blockSize).rootStart then pure false
      else writeEach devname (gptWrites (gptLayout diskBlocks blockSize) diskBlocks blockSize) := by
  rw [installWriteGpt, gptWrites]
  simp only [writeEach_append, writeEach_singleton, writeEntries_eq]
  rfl

end

/-! ## What the log of a run says -/

/-- A write that was acknowledged. -/
def ackedWrite (devname : Bytes) (w : Nat × Buf) : Blkio.Event := ⟨.write devname w.1 1 w.2, true⟩

/-- The call did not fail. -/
def acked : Blkio.Event → Bool
  | ⟨.list, _⟩ => true
  | ⟨.read _ _ _, data⟩ => Option.isSome (data : Option Buf)
  | ⟨.write _ _ _ _, ok⟩ => ok

section

variable {fixed : Bytes → Option Buf} {devname : Bytes}

variable (fixed devname) in
/-- When all writes are acknowledged the log has them all. -/
theorem writeEach_wp (ws : List (Nat × Buf)) (log : List Blkio.Event) :
    BlkWP (writeEach devname ws : Prog (Blkio.machine fixed) Bool) log fun ok log' =>
      (∀ e ∈ log', acked e = true) → ok = true ∧ log' = log ++ ws.map (ackedWrite devname) := by
  induction ws generalizing log with
  | nil => exact fun _ => ⟨rfl, (append_nil log).symm⟩
  | cons w ws ih =>
    refine BlkWP.write fun ok => ?_
    cases ok with
    | false =>
      intro hall
      exact absurd (hall ⟨.write devname w.1 1 w.2, false⟩ (by simp)) Bool.false_ne_true
    | true =>
      refine WP.post (ih _) (fun ok log' h hall => ?_)
      obtain ⟨hok, hlog⟩ := h hall
      refine ⟨hok, ?_⟩
      rw [hlog, append_assoc]
      rfl

/-- An environment that acknowledges everything. -/
def ackAll : Nat → Blkio.Choice := fun _ => ⟨[], true, zeros⟩

theorem writeEach_ackAll (ws : List (Nat × Buf)) (log : List Blkio.Event) :
    (writeEach devname ws : Prog (Blkio.machine fixed) Bool).exec ackAll
    log = (true, log ++ ws.map (ackedWrite devname)) := by
  induction ws generalizing log with
  | nil => exact congrArg (Prod.mk true) (append_nil log).symm
  | cons w ws ih =>
    show (writeEach devname ws : Prog (Blkio.machine fixed) Bool).exec ackAll (log ++ [ackedWrite devname w]) = _
    rw [ih, append_assoc]
    rfl

end

/-! ## Contents -/

/-- The blocks of a device after a write. -/
def wrote (blockSize : Nat) (c : Nat → Buf) (lba count : Nat) (buf : Buf) : Nat → Buf := fun q =>
  if lba ≤ q ∧ q < lba + count then fun i => buf ((q - lba) * blockSize + i) else c q

/-- What a call does to the blocks of the device. -/
def applyEvent (blockSize : Nat) (devname : Bytes) (c : Nat → Buf) (e : Blkio.Event) : Nat → Buf :=
  match e.op with
  | .write dev lba count buf => if dev = devname ∧ acked e = true then wrote blockSize c lba count buf else c
  | _ => c

/-- The blocks of the device after the acknowledged writes of a log. -/
def contentsAfter (blockSize : Nat) (devname : Bytes) (c : Nat → Buf) (log : List Blkio.Event) : Nat → Buf :=
  log.foldl (applyEvent blockSize devname) c

section

variable {blockSize : Nat} {devname : Bytes}

theorem applyEvent_acked (c : Nat → Buf) (w : Nat × Buf) :
    applyEvent blockSize devname c (ackedWrite devname w) = wrote blockSize c w.1 1 w.2 := if_pos ⟨rfl, rfl⟩

theorem contentsAfter_ne {c : Nat → Buf} {ws : List (Nat × Buf)} {lba : Nat} (h : lba ∉ ws.map Prod.fst) :
    contentsAfter blockSize devname c (ws.map (ackedWrite devname)) lba = c lba := by
  induction ws generalizing c with
  | nil => rfl
  | cons w ws ih =>
    simp only [map_cons, mem_cons, not_or] at h
    have hrest : contentsAfter blockSize devname (wrote blockSize c w.1 1 w.2) (ws.map (ackedWrite devname)) lba =
        wrote blockSize c w.1 1 w.2 lba := ih h.2
    rw [map_cons, contentsAfter, foldl_cons, applyEvent_acked]
    exact hrest.trans (if_neg (by omega))

/-- A block that is written once holds what was written. -/
theorem contents_of_mem {c : Nat → Buf} {ws : List (Nat × Buf)} (hnd : (ws.map Prod.fst).Nodup) {w : Nat × Buf}
    (hw : w ∈ ws) : contentsAfter blockSize devname c (ws.map (ackedWrite devname)) w.1 = w.2 := by
  induction ws generalizing c with
  | nil => exact absurd hw not_mem_nil
  | cons w' ws ih =>
    obtain ⟨hnot, hnd⟩ := nodup_cons.mp hnd
    rcases mem_cons.mp hw with rfl | hw
    · have hrest : contentsAfter blockSize devname (wrote blockSize c w.1 1 w.2) (ws.map (ackedWrite devname)) w.1 =
          wrote blockSize c w.1 1 w.2 w.1 := contentsAfter_ne hnot
      rw [map_cons, contentsAfter, foldl_cons, applyEvent_acked]
      refine hrest.trans ((if_pos ⟨le_rfl, by omega⟩).trans ?_)
      simp
    · exact ih hnd hw

end

/-! ## Valid tables -/

/-- The fields of a header. -/
structure Header where
  myLba : Nat
  altLba : Nat
  firstUsable : Nat
  lastUsable : Nat
  entriesLba : Nat
  entryCount : Nat
  entrySize : Nat
  entriesCrc : Nat
  headerCrc : Nat

def readHeader (b : Buf) : Header where
  myLba := getLe b 24 8
  altLba := getLe b 32 8
  firstUsable := getLe b 40 8
  lastUsable := getLe b 48 8
  entriesLba := getLe b 72 8
  entryCount := getLe b 80 4
  entrySize := getLe b 84 4
  entriesCrc := getLe b 88 4
  headerCrc := getLe b 16 4

/-- The array of entries that starts at a block. -/
def entryArray (blockSize : Nat) (c : Nat → Buf) (start : Nat) : Buf :=
    fun i => c (start + i / blockSize) (i % blockSize)

/-- The first and the last block of a partition. -/
def partitionAt (entries : Buf) (k : Nat) : Nat × Nat :=
    (getLe entries (128 * k + 32) 8, getLe entries (128 * k + 40) 8)

/-- Ranges of blocks with none in common. -/
def DisjointRanges (a b : Nat × Nat) : Prop := a.2 < b.1 ∨ b.2 < a.1

/-- How many blocks the entries take. -/
def entryBlocks (blockSize : Nat) : Nat := (128 * 128 + blockSize - 1) / blockSize

/-- The parts of a disk with this table, with their first and last blocks: the headers, the
entries and the usable range. -/
def regions (blockSize : Nat) (h b : Header) : List (Nat × Nat) :=
  [(h.myLba, h.myLba), (h.entriesLba, h.entriesLba + entryBlocks blockSize - 1), (h.firstUsable, h.lastUsable),
    (b.entriesLba, b.entriesLba + entryBlocks blockSize - 1), (b.myLba, b.myLba)]

/-- A partition within the usable range, with at least one block. -/
def Usable (h : Header) (p : Nat × Nat) : Prop := h.firstUsable ≤ p.1 ∧ p.1 ≤ p.2 ∧ p.2 ≤ h.lastUsable

/-- A valid table on a disk of `diskBlocks` blocks; `lbas` are the blocks that were written to,
`c` what the disk holds. -/
structure ValidTable (blockSize diskBlocks : Nat) (lbas : List Nat) (c : Nat → Buf) : Prop where
  onDisk : ∀ lba ∈ lbas, lba < diskBlocks
  signature : ∀ i < 8, c 1 i = (ascii "EFI PART").getD i 0
  primary : (readHeader (c 1)).myLba = 1
  sizes : (readHeader (c 1)).entryCount = 128 ∧ (readHeader (c 1)).entrySize = 128
  esp : Usable (readHeader (c 1)) (partitionAt (entryArray blockSize c (readHeader (c 1)).entriesLba) 0)
  root : Usable (readHeader (c 1)) (partitionAt (entryArray blockSize c (readHeader (c 1)).entriesLba) 1)
  apart : DisjointRanges (partitionAt (entryArray blockSize c (readHeader (c 1)).entriesLba) 0)
    (partitionAt (entryArray blockSize c (readHeader (c 1)).entriesLba) 1)
  unused : ∀ i, 256 ≤ i → i < 128 * 128 → entryArray blockSize c (readHeader (c 1)).entriesLba i = 0
  regions : (regions blockSize (readHeader (c 1)) (readHeader (c (readHeader (c 1)).altLba))).Pairwise DisjointRanges
  primaryCrc : (readHeader (c 1)).headerCrc = crc32 (putLe (c 1) 16 4 0) 92
  backupCrc : (readHeader (c (readHeader (c 1)).altLba)).headerCrc = crc32 (putLe
    (c (readHeader (c 1)).altLba) 16 4 0) 92
  entriesCrc : (readHeader (c 1)).entriesCrc =
    crc32 (entryArray blockSize c (readHeader (c 1)).entriesLba) (128 * 128)
  swapped : (readHeader (c (readHeader (c 1)).altLba)).myLba = (readHeader (c 1)).altLba ∧
    (readHeader (c (readHeader (c 1)).altLba)).altLba = (readHeader (c 1)).myLba
  /-- But for its checksum and its positions the backup header is the primary one. -/
  mirror : ∀ i < blockSize, ¬ (16 ≤ i ∧ i < 20) → ¬ (24 ≤ i ∧ i < 40) → ¬ (72 ≤ i ∧ i < 80) →
    c (readHeader (c 1)).altLba i = c 1 i
  mirrorEntries : ∀ i < 128 * 128, entryArray blockSize c (readHeader (c (readHeader (c 1)).altLba)).entriesLba i =
    entryArray blockSize c (readHeader (c 1)).entriesLba i

/-! ## The layout of a disk that is large enough -/

section

variable {blockSize diskBlocks : Nat}

theorem sub64_of_le {a b : Nat} (h : b ≤ a) (ha : a < 2 ^ 64) : sub64 a b = a - b := by
  unfold sub64
  omega

theorem add64_of_lt {a b : Nat} (h : a + b < 2 ^ 64) : add64 a b = a + b := Nat.mod_eq_of_lt h

/-- The positions of a disk with room for the headers and the entries at one end. -/
structure Layout (blockSize diskBlocks : Nat) (l : GptLayout) : Prop where
  entryLbas : l.entryLbas = entryBlocks blockSize
  blocks : l.entryLbas * blockSize = 128 * 128
  lastLba : l.lastLba + 1 = diskBlocks
  firstUsable : l.firstUsable = 2 + l.entryLbas
  lastUsable : l.lastUsable + l.entryLbas + 1 = l.lastLba
  rootEnd : l.rootEnd = l.lastUsable
  espStart : l.firstUsable ≤ l.espStart
  espEnd : l.espStart ≤ l.espEnd
  rootStart : l.rootStart = l.espEnd + 1

theorem gptLayout_512 (d : Nat) : gptLayout d 512 =
    ⟨2048, 18431, 18432, sub64 (sub64 (sub64 d 1) 32) 1, 32, sub64 d 1, 34, sub64 (sub64 (sub64 d 1) 32) 1⟩ := by
  simp [gptLayout, espAlignBytes, espSizeBytes, entryBytes, add64, sub64]

theorem gptLayout_4096 (d : Nat) : gptLayout d 4096 =
    ⟨256, 2303, 2304, sub64 (sub64 (sub64 d 1) 4) 1, 4, sub64 d 1, 6, sub64 (sub64 (sub64 d 1) 4) 1⟩ := by
  simp [gptLayout, espAlignBytes, espSizeBytes, entryBytes, add64, sub64]

theorem entryBlocks_512 : entryBlocks 512 = 32 := by decide

theorem entryBlocks_4096 : entryBlocks 4096 = 4 := by decide

/-- The last usable block, when nothing wraps around. -/
theorem lastUsable_eq {d n : Nat} (hd : d < 2 ^ 64) (hn : n + 2 ≤ d) :
    sub64 (sub64 (sub64 d 1) n) 1 = d - n - 2 := by
  have h1 : sub64 d 1 = d - 1 := sub64_of_le (by omega) hd
  have h2 : sub64 (d - 1) n = d - 1 - n := sub64_of_le (by omega) (by omega)
  have h3 : sub64 (d - 1 - n) 1 = d - 1 - n - 1 := sub64_of_le (by omega) (by omega)
  rw [h1, h2]
  omega

theorem layout (hbs : blockSize = 512 ∨ blockSize = 4096) (hd : diskBlocks < 2 ^ 64)
    (hn : entryBlocks blockSize + 2 ≤ diskBlocks) : Layout blockSize diskBlocks (gptLayout diskBlocks blockSize) := by
  have hlast : sub64 diskBlocks 1 = diskBlocks - 1 := sub64_of_le (by omega) hd
  have husable := lastUsable_eq hd hn
  rcases hbs with rfl | rfl
  · rw [entryBlocks_512] at hn husable
    rw [gptLayout_512, husable]
    constructor <;> simp only [entryBlocks_512] <;> omega
  · rw [entryBlocks_4096] at hn husable
    rw [gptLayout_4096, husable]
    constructor <;> simp only [entryBlocks_4096] <;> omega

/-- A block of the entries. -/
def entryBlock (entries : Buf) (blockSize i : Nat) : Buf :=
  blockBuf (fun k => entries (i * blockSize + k)) (entryCopy (i * blockSize) blockSize) blockSize

theorem entryWrites_eq (entries : Buf) (start i n : Nat) : entryWrites entries blockSize start i n =
      (range n).map fun j => (add64 start (i + j), entryBlock entries blockSize (i + j)) := by
  induction n generalizing i with
  | zero => rfl
  | succ n ih =>
    rw [entryWrites, ih, range_succ_eq_map, map_cons, map_map]
    congr 1
    refine map_congr_left fun j _ => ?_
    rw [Function.comp, show i + (j + 1) = i + 1 + j by omega]

variable {l : GptLayout}

theorem entryBlock_eq {entries : Buf} {i k : Nat} (hl : Layout blockSize diskBlocks l) (hi : i < l.entryLbas)
    (hk : k < blockSize) : entryBlock entries blockSize i k = entries (i * blockSize + k) := by
  have hle : i * blockSize + blockSize ≤ 128 * 128 := by
    rw [← hl.blocks, ← Nat.succ_mul]
    exact Nat.mul_le_mul_right _ hi
  have hcopy : entryCopy (i * blockSize) blockSize = blockSize := if_neg (not_lt.mpr hle)
  rw [entryBlock, blockBuf, hcopy, Nat.min_self, if_pos hk]

/-- The blocks that are written, from the first to the last. -/
def writtenLbas (l : GptLayout) : List Nat :=
  [0, 1] ++ ((range l.entryLbas).map (2 + ·) ++
    ((range l.entryLbas).map (l.lastLba - l.entryLbas + ·) ++ [l.lastLba]))

theorem entryLbas_eq (entries : Buf) {start n : Nat} (h : start + n ≤ 2 ^ 64) :
    (entryWrites entries blockSize start 0 n).map Prod.fst = (range n).map (start + ·) := by
  rw [entryWrites_eq, map_map]
  refine map_congr_left fun j hj => ?_
  have := mem_range.mp hj
  show add64 start (0 + j) = start + j
  rw [Nat.zero_add]
  exact add64_of_lt (by omega)

theorem writtenLbas_eq (hl : Layout blockSize diskBlocks l) (hd : diskBlocks < 2 ^ 64) :
    (gptWrites l diskBlocks blockSize).map Prod.fst = writtenLbas l := by
  have h1 := hl.lastLba
  have h2 := hl.lastUsable
  have hsub : sub64 l.lastLba l.entryLbas = l.lastLba - l.entryLbas := sub64_of_le (by omega) (by omega)
  rw [gptWrites, hsub]
  simp only [map_append]
  rw [entryLbas_eq (gptEntries l) (show 2 + l.entryLbas ≤ 2 ^ 64 by omega),
    entryLbas_eq (gptEntries l) (show l.lastLba - l.entryLbas + l.entryLbas ≤ 2 ^ 64 by omega)]
  rfl

end

/-! ## Headers and entries -/

section

variable {l : GptLayout} {entryCrc myLba altLba entriesLba i : Nat}

theorem putLe_congr {b b' : Buf} {off n v : Nat} (h : b i = b' i) : putLe b off n v i = putLe b' off n v i := by
  unfold putLe
  rw [h]

theorem putBytes_congr {b b' : Buf} {off : Nat} {bs : Bytes} (h : b i = b' i) :
    putBytes b off bs i = putBytes b' off bs i := by
  unfold putBytes
  rw [h]

/-- The place of the checksum is empty. -/
theorem gptFields_crc (h : 16 ≤ i) (h' : i < 20) : gptFields l entryCrc myLba altLba entriesLba i = 0 := by
  have hsig : i < 0 ∨ 0 + (ascii "EFI PART").length ≤ i := .inr (show 8 ≤ i by omega)
  have hguid : i < 56 ∨ 56 + [(0xAE : UInt8), 0x61, 0x15, 0x00].length ≤ i := .inl (by omega)
  unfold gptFields
  simp (disch := omega) only [putLe_out]
  rw [putBytes_out hguid]
  simp (disch := omega) only [putLe_out]
  exact putBytes_out hsig

/-- Headers with different positions differ there only. -/
theorem gptFields_positions {myLba' altLba' entriesLba' : Nat} (h : ¬ (24 ≤ i ∧ i < 40)) (h' : ¬ (72 ≤ i ∧ i < 80)) :
    gptFields l entryCrc myLba altLba entriesLba i = gptFields l entryCrc myLba' altLba' entriesLba' i := by
  apply putLe_congr
  apply putLe_congr
  apply putLe_congr
  rw [putLe_out (by omega), putLe_out (by omega)]
  apply putBytes_congr
  apply putLe_congr
  apply putLe_congr
  have h32 : i < 32 ∨ 32 + 8 ≤ i := by omega
  have h24 : i < 24 ∨ 24 + 8 ≤ i := by omega
  rw [putLe_out h32, putLe_out h24, putLe_out h32, putLe_out h24]

/-- What a header says. -/
theorem readHeader_sealed (hmy : myLba < 256 ^ 8) (halt : altLba < 256 ^ 8) (hent : entriesLba < 256 ^ 8)
    (hfirst : l.firstUsable < 256 ^ 8) (hlast : l.lastUsable < 256 ^ 8) (hcrc : entryCrc < 256 ^ 4) :
    readHeader (gptSealed (gptFields l entryCrc myLba altLba entriesLba)) =
      ⟨myLba, altLba, l.firstUsable, l.lastUsable, entriesLba, 128, 128, entryCrc,
        crc32 (gptFields l entryCrc myLba altLba entriesLba) 92⟩ := by
  have hhdr : getLe (gptSealed (gptFields l entryCrc myLba altLba entriesLba)) 16 4 =
      crc32 (gptFields l entryCrc myLba altLba entriesLba) 92 := by
    rw [gptSealed, crc32Calc_eq]
    exact getLe_putLe (crc32_lt _ _)
  rw [readHeader, hhdr]
  unfold gptSealed gptFields
  simp (disch := decide) only [getLe_putLe_of_disjoint, getLe_putBytes_of_disjoint, getLe_putLe hmy, getLe_putLe halt,
    getLe_putLe hent, getLe_putLe hfirst, getLe_putLe hlast, getLe_putLe hcrc, getLe_putLe (v := 128) (n := 4)]

theorem gptEntries_esp (hs : l.espStart < 256 ^ 8) (he : l.espEnd < 256 ^ 8) :
    partitionAt (gptEntries l) 0 = (l.espStart, l.espEnd) := by
  unfold partitionAt gptEntries putEntryAt
  simp (disch := decide) only [getLe_putLe_of_disjoint, getLe_putBytes_of_disjoint, getLe_putLe hs, getLe_putLe he]

theorem gptEntries_root (hs : l.rootStart < 256 ^ 8) (he : l.rootEnd < 256 ^ 8) :
    partitionAt (gptEntries l) 1 = (l.rootStart, l.rootEnd) := by
  unfold partitionAt gptEntries putEntryAt
  simp (disch := decide) only [getLe_putLe_of_disjoint, getLe_putLe hs, getLe_putLe he]

theorem gptEntries_unused (h : 256 ≤ i) : gptEntries l i = 0 := by
  have hguid : i < 128 ∨ 128 + aegisRootGuid.length ≤ i := .inr (show 144 ≤ i by omega)
  have hunique : i < 128 + 16 ∨ 128 + 16 + [(0x05 : UInt8), 0x06, 0x07, 0x08].length ≤ i := .inr (show 148 ≤ i by omega)
  have hguid' : i < 0 ∨ 0 + espGuid.length ≤ i := .inr (show 16 ≤ i by omega)
  have hunique' : i < 0 + 16 ∨ 0 + 16 + [(0x01 : UInt8), 0x02, 0x03, 0x04].length ≤ i := .inr (show 20 ≤ i by omega)
  unfold gptEntries putEntryAt
  rw [putLe_out (by omega), putLe_out (by omega), putBytes_out hunique, putBytes_out hguid, putLe_out (by omega),
    putLe_out (by omega), putBytes_out hunique', putBytes_out hguid']
  rfl

end

/-! ## The table on a disk that is large enough -/

section

variable {blockSize diskBlocks : Nat} {l : GptLayout} {devname : Bytes} {c₀ : Nat → Buf}

theorem getLe_blockBuf {b : Buf} {off n : Nat} (hbs : 512 ≤ blockSize) (h : off + n ≤ 512) :
    getLe (blockBuf b 512 blockSize) off n = getLe b off n :=
  getLe_congr fun i _ hi => if_pos (by omega)

/-- The header in a block. -/
theorem readHeader_blockBuf {b : Buf} (hbs : 512 ≤ blockSize) :
    readHeader (blockBuf b 512 blockSize) = readHeader b := by
  unfold readHeader
  simp (disch := decide) only [getLe_blockBuf hbs]

/-- The checksum of a header that is written. -/
theorem crc32_sealed {sector : Buf} (hbs : 512 ≤ blockSize) (hzero : ∀ i, 16 ≤ i → i < 20 → sector i = 0) :
    crc32 (putLe (blockBuf (gptSealed sector) 512 blockSize) 16 4 0) 92 = crc32 sector 92 := by
  refine crc32_congr fun i hi => ?_
  by_cases h : 16 ≤ i ∧ i < 20
  · have hin : putLe (blockBuf (gptSealed sector) 512 blockSize) 16 4 0 (16 + (i - 16)) =
      UInt8.ofNat (0 / 256 ^ (i - 16)) :=
      putLe_in (by omega)
    rw [show 16 + (i - 16) = i by omega, Nat.zero_div] at hin
    rw [hin, hzero i h.1 h.2]
    rfl
  · rw [putLe_out (by omega), blockBuf, if_pos (by omega), gptSealed, putLe_out (by omega)]

theorem backupHeader_eq (hl : Layout blockSize diskBlocks l) (hd : diskBlocks < 2 ^ 64) (entryCrc : Nat) :
    backupHeader l entryCrc = gptSealed (gptFields l entryCrc l.lastLba 1 (l.lastLba - l.entryLbas)) := by
  have h1 := hl.lastLba
  have h2 := hl.lastUsable
  have hsub : sub64 l.lastLba l.entryLbas = l.lastLba - l.entryLbas := sub64_of_le (by omega) (by omega)
  have hzero : putLe (gptFields l entryCrc l.lastLba 1 (l.lastLba - l.entryLbas)) 16 4 0 =
      gptFields l entryCrc l.lastLba 1 (l.lastLba - l.entryLbas) := by
    funext i
    by_cases h : 16 ≤ i ∧ i < 20
    · rw [gptFields_crc h.1 h.2, putLe, if_pos (by omega), Nat.zero_div]
      rfl
    · exact putLe_out (by omega)
  rw [backupHeader, hsub, hzero]

/-- The blocks after all writes. -/
def tableOf (blockSize diskBlocks : Nat) (devname : Bytes) (l : GptLayout) (c₀ : Nat → Buf) : Nat → Buf :=
  contentsAfter blockSize devname c₀ ((gptWrites l diskBlocks blockSize).map (ackedWrite devname))

variable (hl : Layout blockSize diskBlocks l) (hd : diskBlocks < 2 ^ 64) (hroot : l.rootStart < l.rootEnd)

include hl hroot

theorem writtenLbas_lt : (writtenLbas l).Pairwise (· < ·) := by
  have h1 := hl.firstUsable
  have h2 := hl.lastUsable
  have h3 := hl.espStart
  have h4 := hl.espEnd
  have h5 := hl.rootStart
  have h6 := hl.rootEnd
  have hrange : ∀ a, ((range l.entryLbas).map (a + ·)).Pairwise (· < ·) := fun a =>
    pairwise_map.mpr (pairwise_lt_range.imp fun h => by omega)
  have hmem : ∀ {a x}, x ∈ (range l.entryLbas).map (a + ·) → a ≤ x ∧ x < a + l.entryLbas := by
    intro a x hx
    obtain ⟨j, hj, rfl⟩ := mem_map.mp hx
    have := mem_range.mp hj
    omega
  refine pairwise_append.mpr ⟨by decide, ?_, fun x hx y hy => ?_⟩
  · refine pairwise_append.mpr ⟨hrange 2, ?_, fun x hx y hy => ?_⟩
    · refine pairwise_append.mpr ⟨hrange _, pairwise_singleton _ _, fun x hx y hy => ?_⟩
      have := hmem hx
      rw [mem_singleton.mp hy]
      omega
    · have hx := hmem hx
      rcases mem_append.mp hy with hy | hy
      · have hy := hmem hy
        omega
      · rw [mem_singleton.mp hy]
        omega
  · have hx : x ≤ 1 := by
      simp only [mem_cons, not_mem_nil, or_false] at hx
      omega
    rcases mem_append.mp hy with hy | hy
    · have hy := hmem hy
      omega
    rcases mem_append.mp hy with hy | hy
    · have hy := hmem hy
      omega
    · rw [mem_singleton.mp hy]
      omega

include hd

theorem table_of_mem {lba : Nat} {buf : Buf} (hw : (lba, buf) ∈ gptWrites l diskBlocks blockSize) :
    tableOf blockSize diskBlocks devname l c₀ lba = buf := by
  have hnd : ((gptWrites l diskBlocks blockSize).map Prod.fst).Nodup := by
    rw [writtenLbas_eq hl hd]
    exact (writtenLbas_lt hl hroot).imp fun h => Nat.ne_of_lt h
  exact contents_of_mem hnd hw

theorem table_primary : tableOf blockSize diskBlocks devname l c₀ 1 =
    blockBuf (primaryHeader l (crc32Calc (gptEntries l) entryBytes)) 512 blockSize :=
  table_of_mem hl hd hroot (by simp [gptWrites])

theorem table_backup : tableOf blockSize diskBlocks devname l c₀ l.lastLba =
    blockBuf (gptSealed (gptFields l (crc32Calc (gptEntries l) entryBytes) l.lastLba 1 (l.lastLba - l.entryLbas))) 512
      blockSize := by
  rw [← backupHeader_eq hl hd]
  exact table_of_mem hl hd hroot (by simp [gptWrites])

/-- The entries, at both ends of the disk. -/
theorem table_entries {start : Nat} (hstart : start = 2 ∨ start = l.lastLba - l.entryLbas) {i : Nat}
    (hi : i < 128 * 128) :
    entryArray blockSize (tableOf blockSize diskBlocks devname l c₀) start i = gptEntries l i := by
  have h1 := hl.lastLba
  have h2 := hl.lastUsable
  have hsub : sub64 l.lastLba l.entryLbas = l.lastLba - l.entryLbas := sub64_of_le (by omega) (by omega)
  have hpos : 0 < blockSize := by
    rcases Nat.eq_zero_or_pos blockSize with h | h
    · have := hl.blocks
      rw [h] at this
      omega
    · exact h
  have hdiv : i / blockSize < l.entryLbas := by
    rw [Nat.div_lt_iff_lt_mul hpos, hl.blocks]
    exact hi
  have hadd : add64 start (i / blockSize) = start + i / blockSize := add64_of_lt (by omega)
  have hmem : (start + i / blockSize, entryBlock (gptEntries l) blockSize (i / blockSize)) ∈
      entryWrites (gptEntries l) blockSize start 0 l.entryLbas := by
    rw [entryWrites_eq, ← hadd]
    refine mem_map.mpr ⟨i / blockSize, mem_range.mpr hdiv, ?_⟩
    rw [Nat.zero_add]
  have hw : (start + i / blockSize,
      entryBlock (gptEntries l) blockSize (i / blockSize)) ∈ gptWrites l diskBlocks blockSize := by
    rw [gptWrites, hsub]
    rcases hstart with rfl | rfl
    · simp [hmem]
    · simp [hmem]
  rw [entryArray, table_of_mem hl hd hroot hw, entryBlock_eq hl hdiv (Nat.mod_lt i hpos), Nat.div_add_mod']

omit hroot in
theorem writtenLbas_lt_disk : ∀ lba ∈ writtenLbas l, lba < diskBlocks := by
  have h1 := hl.lastLba
  have h2 := hl.lastUsable
  intro lba hlba
  have hmem : ∀ {a}, lba ∈ (range l.entryLbas).map (a + ·) → lba < a + l.entryLbas := by
    intro a hx
    obtain ⟨j, hj, rfl⟩ := mem_map.mp hx
    have := mem_range.mp hj
    omega
  rcases mem_append.mp hlba with h | h
  · simp only [mem_cons, not_mem_nil, or_false] at h
    omega
  rcases mem_append.mp h with h | h
  · have := hmem h
    omega
  rcases mem_append.mp h with h | h
  · have := hmem h
    omega
  · rw [mem_singleton.mp h]
    omega

theorem table_headers (hbs : 512 ≤ blockSize) (devname : Bytes) (c₀ : Nat → Buf) :
    readHeader (tableOf blockSize diskBlocks devname l c₀ 1) =
      ⟨1, l.lastLba, l.firstUsable, l.lastUsable, 2, 128, 128, crc32Calc (gptEntries l) entryBytes,
        crc32 (gptFields l (crc32Calc (gptEntries l) entryBytes) 1 l.lastLba 2) 92⟩ ∧
    readHeader (tableOf blockSize diskBlocks devname l c₀ l.lastLba) =
      ⟨l.lastLba, 1, l.firstUsable, l.lastUsable, l.lastLba - l.entryLbas, 128, 128,
        crc32Calc (gptEntries l) entryBytes,
        crc32 (gptFields l (crc32Calc (gptEntries l) entryBytes) l.lastLba 1 (l.lastLba - l.entryLbas)) 92⟩ := by
  have h1 := hl.lastLba
  have h2 := hl.lastUsable
  have h3 := hl.firstUsable
  have hcrc : crc32Calc (gptEntries l) entryBytes < 256 ^ 4 := by
    rw [crc32Calc_eq]
    exact crc32_lt _ _
  constructor
  · rw [table_primary hl hd hroot, readHeader_blockBuf hbs, primaryHeader,
      readHeader_sealed (by omega) (by omega) (by omega) (by omega) (by omega) hcrc]
  · rw [table_backup hl hd hroot, readHeader_blockBuf hbs,
      readHeader_sealed (by omega) (by omega) (by omega) (by omega) (by omega) hcrc]

/-- All writes together leave a valid table. -/
theorem validTable (hbs : 512 ≤ blockSize) :
    ValidTable blockSize diskBlocks (writtenLbas l) (tableOf blockSize diskBlocks devname l c₀) := by
  have h1 := hl.lastLba
  have h2 := hl.lastUsable
  have h3 := hl.firstUsable
  have h4 := hl.espStart
  have h5 := hl.espEnd
  have h6 := hl.rootStart
  have h7 := hl.rootEnd
  have h8 := hl.entryLbas
  obtain ⟨hP, hB⟩ := table_headers hl hd hroot hbs devname c₀
  have harr : ∀ i < 128 * 128,
      entryArray blockSize (tableOf blockSize diskBlocks devname l c₀) 2 i = gptEntries l i := fun i hi =>
    table_entries hl hd hroot (.inl rfl) hi
  have hpart : ∀ k < 2, partitionAt (entryArray blockSize (tableOf blockSize diskBlocks devname l c₀) 2) k =
      partitionAt (gptEntries l) k := by
    intro k hk
    rw [partitionAt, partitionAt, getLe_congr fun i _ hi => harr i (by omega),
      getLe_congr fun i _ hi => harr i (by omega)]
  have hesp := (hpart 0 (by omega)).trans (gptEntries_esp (l := l) (by omega) (by omega))
  have hrt := (hpart 1 (by omega)).trans (gptEntries_root (l := l) (by omega) (by omega))
  constructor
  case onDisk => exact writtenLbas_lt_disk hl hd
  case signature =>
    intro i hi
    rw [table_primary hl hd hroot, blockBuf, if_pos (by omega), primaryHeader, gptSealed, gptFields]
    have hguid : i < 56 ∨ 56 + [(0xAE : UInt8), 0x61, 0x15, 0x00].length ≤ i := .inl (by omega)
    simp (disch := omega) only [putLe_out]
    rw [putBytes_out hguid]
    simp (disch := omega) only [putLe_out]
    rw [putBytes, if_pos ⟨Nat.zero_le i, show i < 0 + 8 by omega⟩, Nat.sub_zero]
  case primary => rw [hP]
  case sizes => rw [hP]; exact ⟨rfl, rfl⟩
  case esp =>
    rw [hP]
    show Usable _ (partitionAt (entryArray blockSize _ 2) 0)
    rw [hesp]
    exact ⟨h4, h5, show l.espEnd ≤ l.lastUsable by omega⟩
  case root =>
    rw [hP]
    show Usable _ (partitionAt (entryArray blockSize _ 2) 1)
    rw [hrt]
    exact ⟨show l.firstUsable ≤ l.rootStart by omega, hroot.le, h7.le⟩
  case apart =>
    rw [hP]
    show DisjointRanges (partitionAt (entryArray blockSize _ 2) 0) (partitionAt (entryArray blockSize _ 2) 1)
    rw [hesp, hrt]
    exact .inl (show l.espEnd < l.rootStart by omega)
  case unused =>
    intro i hi hi'
    rw [hP]
    exact (harr i hi').trans (gptEntries_unused hi)
  case regions =>
    rw [hP, hB]
    simp only [regions, DisjointRanges, pairwise_cons, mem_cons, not_mem_nil, forall_eq_or_imp,
      List.Pairwise.nil, and_true, false_implies, implies_true, ← h8]
    omega
  case primaryCrc =>
    rw [hP, table_primary hl hd hroot]
    exact (crc32_sealed hbs fun i hi hi' => gptFields_crc hi hi').symm
  case backupCrc =>
    rw [hP]
    show (readHeader (tableOf blockSize diskBlocks devname l c₀ l.lastLba)).headerCrc =
      crc32 (putLe (tableOf blockSize diskBlocks devname l c₀ l.lastLba) 16 4 0) 92
    rw [hB, table_backup hl hd hroot]
    exact (crc32_sealed hbs fun i hi hi' => gptFields_crc hi hi').symm
  case entriesCrc =>
    rw [hP]
    show crc32Calc (gptEntries l) entryBytes = _
    rw [crc32Calc_eq]
    exact (crc32_congr harr).symm
  case swapped =>
    rw [hP]
    show (readHeader (tableOf blockSize diskBlocks devname l c₀ l.lastLba)).myLba = l.lastLba ∧
      (readHeader (tableOf blockSize diskBlocks devname l c₀ l.lastLba)).altLba = 1
    rw [hB]
    exact ⟨rfl, rfl⟩
  case mirror =>
    intro i hi hcrc hpos hent
    rw [hP]
    show tableOf blockSize diskBlocks devname l c₀ l.lastLba i = _
    rw [table_primary hl hd hroot, table_backup hl hd hroot, blockBuf, blockBuf]
    split
    · rw [primaryHeader, gptSealed, gptSealed, putLe_out (by omega), putLe_out (by omega)]
      exact gptFields_positions hpos hent
    · rfl
  case mirrorEntries =>
    intro i hi
    rw [hP]
    show entryArray blockSize _ (readHeader (tableOf blockSize diskBlocks devname l c₀ l.lastLba)).entriesLba i =
      entryArray blockSize _ 2 i
    rw [hB, harr i hi]
    exact table_entries hl hd hroot (.inr rfl) hi

end

/-! ## Runs -/

/-- The blocks that the writes of a log go to. -/
def lbasOf (log : List Blkio.Event) : List Nat :=
  log.flatMap fun e =>
    match e.op with
    | .write _ lba count _ => range' lba count
    | _ => []

theorem lbasOf_acked (devname : Bytes) (ws : List (Nat × Buf)) :
    lbasOf (ws.map (ackedWrite devname)) = ws.map Prod.fst := by
  induction ws with
  | nil => rfl
  | cons w ws ih =>
    rw [map_cons, map_cons, ← ih]
    rfl

/-- What a run of `install_write_gpt` should do: refuse before anything is written, or leave a
valid table if all writes are acknowledged. -/
def GptSafe (fixed : Bytes → Option Buf) (devname : Bytes) (diskBlocks blockSize : Nat) (σ : Nat → Blkio.Choice)
    (c₀ : Nat → Buf) : Prop :=
  let r := (installWriteGpt devname diskBlocks blockSize : Prog (Blkio.machine fixed) Bool).exec σ []
  r.1 = false ∧ r.2 = [] ∨
    ((∀ e ∈ r.2, acked e = true) →
      r.1 = true ∧ ValidTable blockSize diskBlocks (lbasOf r.2) (contentsAfter blockSize devname c₀ r.2))

section

variable {fixed : Bytes → Option Buf} {devname : Bytes} {diskBlocks blockSize : Nat} {c₀ : Nat → Buf}

section

variable (hbs : blockSize = 512 ∨ blockSize = 4096)

include hbs

theorem gptSafe (hd : diskBlocks < 2 ^ 64)
    (hn : entryBlocks blockSize + 2 ≤ diskBlocks) (σ : Nat → Blkio.Choice) :
    GptSafe fixed devname diskBlocks blockSize σ c₀ := by
  have hl := layout hbs hd hn
  have hle : 512 ≤ blockSize := by omega
  rw [GptSafe, installWriteGpt_eq]
  by_cases hroot : (gptLayout diskBlocks blockSize).rootEnd ≤ (gptLayout diskBlocks blockSize).rootStart
  · rw [if_pos hroot]
    exact .inl ⟨rfl, rfl⟩
  · rw [if_neg hroot]
    refine .inr fun hall => ?_
    obtain ⟨hok, hlog⟩ := (writeEach_wp fixed devname _ []).exec σ hall
    rw [hok, hlog, nil_append, lbasOf_acked, writtenLbas_eq hl hd]
    exact ⟨rfl, validTable hl hd (not_le.mp hroot) hle⟩

/-- On a disk that is too small for the headers and entries at one end, the test of the size
passes. -/
theorem small_passes (hn : diskBlocks < entryBlocks blockSize + 2) :
    ¬ (gptLayout diskBlocks blockSize).rootEnd ≤ (gptLayout diskBlocks blockSize).rootStart := by
  rcases hbs with rfl | rfl
  · rw [entryBlocks_512] at hn
    rw [gptLayout_512]
    simp only [sub64]
    omega
  · rw [entryBlocks_4096] at hn
    rw [gptLayout_4096]
    simp only [sub64]
    omega

theorem not_gptSafe (hn : diskBlocks < entryBlocks blockSize + 2) :
    ¬ GptSafe fixed devname diskBlocks blockSize ackAll c₀ := by
  have hpos : 0 < entryBlocks blockSize ∧ entryBlocks blockSize < 100 := by
    rcases hbs with rfl | rfl
    · rw [entryBlocks_512]; omega
    · rw [entryBlocks_4096]; omega
  rw [GptSafe, installWriteGpt_eq, if_neg (small_passes hbs hn), writeEach_ackAll]
  rintro (⟨hfalse, -⟩ | hvalid)
  · exact (Bool.false_ne_true hfalse.symm).elim
  · have hall : ∀ e ∈ (true, [] ++ (gptWrites (gptLayout diskBlocks blockSize) diskBlocks blockSize).map
        (ackedWrite devname)).2, acked e = true := by
      intro e he
      obtain ⟨w, -, rfl⟩ := mem_map.mp he
      rfl
    have hon := (hvalid hall).2.onDisk (entryBlocks blockSize + 1)
    rw [nil_append, lbasOf_acked] at hon
    have hmem : entryBlocks blockSize + 1 ∈
        (gptWrites (gptLayout diskBlocks blockSize) diskBlocks blockSize).map Prod.fst := by
      have hrange : entryBlocks blockSize + 1 ∈ (range (entryBlocks blockSize)).map (2 + ·) :=
        mem_map.mpr ⟨entryBlocks blockSize - 1, mem_range.mpr (by omega), by omega⟩
      rw [← entryLbas_eq (gptEntries (gptLayout diskBlocks blockSize)) (by omega)] at hrange
      rw [gptWrites]
      simp only [map_append, mem_append]
      exact .inr (.inr (.inl hrange))
    have := hon hmem
    omega

end

end

/-- Every run refuses the disk or leaves a valid table on it, exactly when the disk has at least as
many blocks as one header, the entries and the protective MBR take. -/
theorem gpt_valid_iff (fixed : Bytes → Option Buf) (devname : Bytes) {diskBlocks blockSize : Nat}
    (hbs : blockSize = 512 ∨ blockSize = 4096) (hd : diskBlocks < 2 ^ 64) :
    (∀ σ c₀, GptSafe fixed devname diskBlocks blockSize σ c₀) ↔ entryBlocks blockSize + 2 ≤ diskBlocks := by
  constructor
  · intro h
    by_contra hn
    exact not_gptSafe hbs (not_le.mp hn) (h ackAll fun _ => zeros)
  · intro hn σ c₀
    exact gptSafe hbs hd hn σ

/-- A disk of 20000 blocks. -/
theorem gpt_valid_20000 : GptSafe (fun _ => none) (ascii "nvme0") 20000 512 ackAll fun _ => zeros :=
  (gpt_valid_iff (fun _ => none) (ascii "nvme0") (.inl rfl) (by norm_num)).mpr (by decide) _ _

/-- A disk of 33 blocks: its last usable block would be number -1, and the entries are written
beyond its end. -/
theorem gpt_invalid_33 : ¬ GptSafe (fun _ => none) (ascii "nvme0") 33 512 ackAll fun _ => zeros :=
  not_gptSafe (.inl rfl) (by decide)

end Lorica.Proof.Install.Gpt
