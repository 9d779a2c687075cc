import Lorica.Impl.Install.Copy
import Lorica.Proof.Install.Blkio

/-!
# The copy of the boot partition

Every write of `install_copy_esp` lies within the partition that `install_write_gpt` makes for the
image (`copyXfers_wp`), and when the verification passes, what the device returned while it was
read back is the image and zeros behind it (`verifyXfers_wp`), whatever the device has done before.
-/

namespace Lorica.Proof.Install.Esp

open Lorica.Impl.Install Lorica.Impl.Install.Gpt Lorica.Impl.Install.Copy List

variable {fixed : Bytes → Option Buf} {devname : Bytes} {blocks start blockSize : Nat} {src : Buf}

/-! ## Transfers -/

/-- The bytes that the start of the partition should hold: `len` bytes of the source, and zeros. -/
def image (src : Buf) (len : Nat) : Buf := fun k => if k < len then src k else 0

/-- The `i`-th transfer of the source, as the partition should hold it. -/
theorem xferBuf_image {i k : Nat} (hk : k < xferBytes) :
    xferBuf (fun k => src (i * srcPerXfer * ramBlockSize + k)) (xferCount blocks i) k =
      image src (blocks * ramBlockSize) (i * xferBytes + k) := by
  have hper : srcPerXfer = 128 := by decide
  have hxfer : xferBytes = 65536 := rfl
  have hram : ramBlockSize = 512 := rfl
  have hcount : xferCount blocks i = min 128 (blocks - i * 128) := by
    unfold xferCount
    rw [hper]
    split <;> omega
  have hpos : i * srcPerXfer * ramBlockSize + k = i * xferBytes + k := by
    rw [hper, hram, hxfer]
    omega
  have hin : k < xferCount blocks i * ramBlockSize ↔ i * xferBytes + k < blocks * ramBlockSize := by
    rw [hram, hxfer]
    omega
  simp only [xferBuf, image, hpos, hin]

/-! ## The copy -/

/-- A call that writes nothing but blocks of the device from `first` to `last`. -/
def WritesWithin (devname : Bytes) (first last : Nat) (e : Blkio.Event) : Prop :=
  ∀ dev lba count buf, e.op = .write dev lba count buf → dev = devname ∧ first ≤ lba ∧ lba + count ≤ last + 1

theorem writesWithin_read {first last : Nat} {dev : Bytes} {lba count : Nat} (r : Option Buf) :
    WritesWithin devname first last ⟨.read dev lba count, r⟩ := fun _ _ _ _ h => by cases h

/-- Each write of the copy lies in the partition. -/
theorem copyXfers_wp {first last i n : Nat} (hfirst : first ≤ start)
    (hlast : start + (i + n) * (xferBytes / blockSize) ≤ last + 1) (log : List Blkio.Event) :
    BlkWP (copyXfers ramdisk1 blocks devname start blockSize i n : Prog (Blkio.machine fixed) Bool) log fun _ log' =>
      ∃ es, log' = log ++ es ∧ ∀ e ∈ es, WritesWithin devname first last e := by
  induction n generalizing i log with
  | zero => exact ⟨[], (append_nil log).symm, forall_mem_nil _⟩
  | succ n ih =>
    have hmul : (i + (n + 1)) * (xferBytes / blockSize) =
        i * (xferBytes / blockSize) + xferBytes / blockSize + n * (xferBytes / blockSize) := by ring
    have hnext : start + (i + 1 + n) * (xferBytes / blockSize) ≤ last + 1 := by
      rw [show i + 1 + n = i + (n + 1) by omega]
      exact hlast
    refine BlkWP.read ⟨_, rfl, forall_mem_singleton.mpr (writesWithin_read _)⟩ fun data _ => ?_
    refine BlkWP.write fun ok => ?_
    have hwrite : WritesWithin devname first last
        ⟨.write devname (start + i * (xferBytes / blockSize)) (xferBytes / blockSize)
          (xferBuf data (xferCount blocks i)), ok⟩ := by
      intro dev lba count buf h
      cases h
      exact ⟨rfl, by omega, by omega⟩
    have hpair : ∀ e ∈ [⟨.read ramdisk1 (i * srcPerXfer) (xferCount blocks i), some data⟩,
        (⟨.write devname (start + i * (xferBytes / blockSize)) (xferBytes / blockSize)
          (xferBuf data (xferCount blocks i)), ok⟩ : Blkio.Event)], WritesWithin devname first last e :=
      forall_mem_cons.mpr ⟨writesWithin_read _, forall_mem_singleton.mpr hwrite⟩
    cases ok with
    | false => exact ⟨_, append_assoc .., hpair⟩
    | true =>
      refine WP.post (ih hnext _) (fun ok log' h => ?_)
      obtain ⟨es, rfl, hes⟩ := h
      have hassoc : ∀ a b : Blkio.Event, log ++ [a] ++ [b] ++ es = log ++ ([a, b] ++ es) := fun a b => by
        rw [append_assoc, append_assoc]
        rfl
      exact ⟨_, hassoc .., forall_mem_append.mpr ⟨hpair, hes⟩⟩

/-! ## The verification -/

/-- The two reads of each transfer of the verification, from the `i`-th on; `back` is what the device
returned. -/
def verifyEvents (src : Buf) (blocks : Nat) (devname : Bytes) (start per : Nat) (back : Nat → Buf) :
    Nat → Nat → List Blkio.Event
  | _, 0 => []
  | i, n + 1 =>
    [⟨.read ramdisk1 (i * srcPerXfer) (xferCount blocks i), some fun k => src (i * srcPerXfer * ramBlockSize + k)⟩,
      ⟨.read devname (start + i * per) per, some (back i)⟩] ++
        verifyEvents src blocks devname start per back (i + 1) n

theorem verifyEvents_congr {per : Nat} {back back' : Nat → Buf} {i n : Nat} (h : ∀ j, i ≤ j → back j = back' j) :
    verifyEvents src blocks devname start per back i n = verifyEvents src blocks devname start per back' i n := by
  induction n generalizing i with
  | zero => rfl
  | succ n ih => rw [verifyEvents, verifyEvents, h i le_rfl, ih fun j hj => h j (by omega)]

/-- What passes the verification is the image. -/
theorem verifyXfers_wp (hsrc : fixed ramdisk1 = some src) {i n : Nat} (log : List Blkio.Event) :
    BlkWP (verifyXfers ramdisk1 blocks devname start blockSize i n : Prog (Blkio.machine fixed) Bool) log fun ok log' =>
      (∃ es, log' = log ++ es ∧ ∀ first last, ∀ e ∈ es, WritesWithin devname first last e) ∧
      (ok = true → ∃ back : Nat → Buf,
        log' = log ++ verifyEvents src blocks devname start (xferBytes / blockSize) back i n ∧
        ∀ j, i ≤ j → j < i + n → ∀ k < xferBytes, back j k = image src
          (blocks * ramBlockSize) (j * xferBytes + k)) := by
  induction n generalizing i log with
  | zero =>
    have hnil : log = log ++ [] := (append_nil log).symm
    exact ⟨⟨[], hnil, fun _ _ => forall_mem_nil _⟩, fun _ => ⟨fun _ => zeros, hnil, fun j hj hj' => by omega⟩⟩
  | succ n ih =>
    have hfail : ∀ es : List Blkio.Event, (∀ first last, ∀ e ∈ es, WritesWithin devname first last e) → ∀ P : Prop,
        (∃ es', log ++ es = log ++ es' ∧ ∀ first last, ∀ e ∈ es', WritesWithin devname first last e) ∧
          (false = true → P) := fun es hes P => ⟨⟨es, rfl, hes⟩, by simp⟩
    refine BlkWP.read (hfail _ (fun _ _ => forall_mem_singleton.mpr (writesWithin_read _)) _) fun data hdata => ?_
    obtain rfl := hdata src hsrc
    have hpair : ∀ r first last, ∀ e ∈ [(⟨.read ramdisk1 (i * srcPerXfer) (xferCount blocks i),
        some fun k => src (i * srcPerXfer * ramBlockSize + k)⟩ : Blkio.Event),
        ⟨.read devname (start + i * (xferBytes / blockSize)) (xferBytes / blockSize), r⟩],
        WritesWithin devname first last e := fun r _ _ =>
      forall_mem_cons.mpr ⟨writesWithin_read _, forall_mem_singleton.mpr (writesWithin_read _)⟩
    refine BlkWP.read ?_ fun back _ => ?_
    · rw [append_assoc]
      exact hfail _ (hpair none) _
    · rw [append_assoc]
      dsimp only
      generalize hsame : sameXfer
        (xferBuf (fun k => src (i * srcPerXfer * ramBlockSize + k)) (xferCount blocks i)) back = same
      cases same with
      | true =>
        refine WP.post (ih _) (fun ok log' h => ?_)
        obtain ⟨⟨es, hlog, hes⟩, hok⟩ := h
        refine ⟨⟨_, hlog.trans (append_assoc ..), fun first last => forall_mem_append.mpr
          ⟨hpair _ first last, hes first last⟩⟩, fun ht => ?_⟩
        obtain ⟨backs, hback, himage⟩ := hok ht
        -- what this transfer returned, and what the later ones did
        have hlater : ∀ j, i + 1 ≤ j → backs j = Function.update backs i back j := fun j hj =>
          (Function.update_of_ne (by omega) back backs).symm
        refine ⟨Function.update backs i back, ?_, fun j hj hj' k hk => ?_⟩
        · rw [hback, verifyEvents, Function.update_self, append_assoc, singleton_append,
            verifyEvents_congr hlater]
        · by_cases hji : j = i
          · subst hji
            rw [Function.update_self, ← of_decide_eq_true hsame k hk]
            exact xferBuf_image hk
          · rw [Function.update_of_ne hji]
            exact himage j (by omega) (by omega) k hk
      | false => exact hfail _ (hpair _) _

/-! ## The whole installation of the ESP -/

/-- The transfers of an image that is cut to the size of the partition end in it. -/
theorem xfers_fit (hbs : blockSize = 512 ∨ blockSize = 4096) (diskBlocks : Nat)
    (hblocks : blocks ≤ espSizeBytes / ramBlockSize) :
    (gptLayout diskBlocks blockSize).espStart = espAlignBytes / blockSize ∧
      espAlignBytes / blockSize + (0 + totalXfers blocks) * (xferBytes / blockSize) ≤
        (gptLayout diskBlocks blockSize).espEnd + 1 := by
  have hper : srcPerXfer = 128 := by decide
  have hblocks : blocks ≤ 16384 := hblocks
  have htotal : totalXfers blocks ≤ 128 := by
    rw [totalXfers, hper]
    omega
  refine ⟨rfl, ?_⟩
  rcases hbs with rfl | rfl
  · have hend : (gptLayout diskBlocks 512).espEnd = 18431 := rfl
    have hstart : espAlignBytes / 512 = 2048 := rfl
    have hx : xferBytes / 512 = 128 := rfl
    rw [hend, hx]
    omega
  · have hend : (gptLayout diskBlocks 4096).espEnd = 2303 := rfl
    have hstart : espAlignBytes / 4096 = 256 := rfl
    have hx : xferBytes / 4096 = 16 := rfl
    rw [hend, hx]
    omega

/-- The copy, and then the verification if the copy succeeds. -/
theorem installCopyEsp_wp (hsrc : fixed ramdisk1 = some src)
    (hbs : blockSize = 512 ∨ blockSize = 4096) (diskBlocks : Nat) :
    BlkWP (installCopyEsp devname blockSize : Prog (Blkio.machine fixed) Bool) [] fun ok log =>
      (∀ e ∈ log, WritesWithin devname (gptLayout diskBlocks blockSize).espStart
        (gptLayout diskBlocks blockSize).espEnd e) ∧
      (ok = true → ∃ devs copied, ∃ back : Nat → Buf,
        log = [⟨.list, devs⟩] ++ copied ++ verifyEvents src (min (espBlocks devs) (espSizeBytes / ramBlockSize)) devname
          (gptLayout diskBlocks blockSize).espStart (xferBytes / blockSize) back 0
          (totalXfers (min (espBlocks devs) (espSizeBytes / ramBlockSize))) ∧
        ∀ j < totalXfers (min (espBlocks devs) (espSizeBytes / ramBlockSize)), ∀ k < xferBytes,
          back j k = image src (min (espBlocks devs * ramBlockSize) espSizeBytes) (j * xferBytes + k)) := by
  refine BlkWP.list fun devs => ?_
  have hlist : ∀ first last, WritesWithin devname first last ⟨.list, devs⟩ := fun _ _ _ _ _ _ h => by cases h
  show BlkWP (if espBlocks devs = 0 then _ else _) _ _
  split
  · exact ⟨forall_mem_singleton.mpr (hlist _ _), by simp⟩
  · obtain ⟨hstart, hend⟩ := xfers_fit hbs diskBlocks (min_le_right (espBlocks devs) (espSizeBytes / ramBlockSize))
    have hsize : min (espBlocks devs) (espSizeBytes / ramBlockSize) * ramBlockSize =
        min (espBlocks devs * ramBlockSize) espSizeBytes := (Nat.mul_min_mul_right ..).symm
    refine WP.seq (copyXfers_wp le_rfl hend _) (fun ok log h => ?_)
    obtain ⟨copied, rfl, hcopied⟩ := h
    have hfirst : ∀ e ∈ [(⟨.list, devs⟩ : Blkio.Event)] ++ copied, WritesWithin devname (espAlignBytes / blockSize)
        (gptLayout diskBlocks blockSize).espEnd e :=
      forall_mem_append.mpr ⟨forall_mem_singleton.mpr (hlist _ _), hcopied⟩
    cases ok with
    | false => exact ⟨hfirst, by simp⟩
    | true =>
      refine WP.post (verifyXfers_wp hsrc _) (fun ok log h => ?_)
      obtain ⟨⟨es, rfl, hes⟩, hok⟩ := h
      refine ⟨forall_mem_append.mpr ⟨hfirst, hes _ _⟩, fun ht => ?_⟩
      obtain ⟨back, hlog, himage⟩ := hok ht
      rw [hsize] at himage
      exact ⟨devs, copied, back, hlog, fun j hj k hk => himage j (Nat.zero_le j) (by omega) k hk⟩

/-- The boot partition is copied within its bounds, and a copy that is reported as done has been read
back from the start of the partition: the bytes of the source that fit, and zeros to the end of the
last transfer. -/
theorem esp_copy_in_partition (hsrc : fixed ramdisk1 = some src) (hbs : blockSize = 512 ∨ blockSize = 4096)
    (devname : Bytes) (diskBlocks : Nat) (σ : Nat → Blkio.Choice) :
    (∀ e ∈ ((installCopyEsp devname blockSize : Prog (Blkio.machine fixed) Bool).exec σ []).2,
      WritesWithin devname (gptLayout diskBlocks blockSize).espStart (gptLayout diskBlocks blockSize).espEnd e) ∧
    (((installCopyEsp devname blockSize : Prog (Blkio.machine fixed) Bool).exec σ []).1 = true →
      ∃ devs copied, ∃ back : Nat → Buf,
        ((installCopyEsp devname blockSize : Prog (Blkio.machine fixed) Bool).exec σ []).2 =
          [⟨.list, devs⟩] ++ copied ++ verifyEvents src (min (espBlocks devs) (espSizeBytes / ramBlockSize)) devname
            (gptLayout diskBlocks blockSize).espStart (xferBytes / blockSize) back 0
            (totalXfers (min (espBlocks devs) (espSizeBytes / ramBlockSize))) ∧
        ∀ j < totalXfers (min (espBlocks devs) (espSizeBytes / ramBlockSize)), ∀ k < xferBytes,
          back j k = image src (min (espBlocks devs * ramBlockSize) espSizeBytes) (j * xferBytes + k)) :=
  (installCopyEsp_wp hsrc hbs diskBlocks).exec σ

/-- A ramdisk full of sevens. -/
def sevens (dev : Bytes) : Option Buf := if dev = ramdisk1 then some fun _ => 7 else none

/-- Every call succeeds, the ramdisk has three blocks, and a disk gives them back with zeros behind. -/
def threeBlocks : Blkio.Choice := ⟨[(ramdisk1, 3)], true, xferBuf (fun _ => 7) 3⟩

theorem verifyXfers_sevens (log : List Blkio.Event) :
    ((verifyXfers ramdisk1 3 (ascii "nvme0") 2048 512 0 1 : Prog (Blkio.machine sevens) Bool).exec
      (fun _ => threeBlocks) log).1 = true := by
  have hsame : sameXfer (xferBuf (fun _ => 7) 3) (xferBuf (fun _ => 7) 3) = true := decide_eq_true fun _ _ => rfl
  have hsrc : ∀ lba count log, ((Blkio.read ramdisk1 lba count : Prog (Blkio.machine sevens) _).exec
      (fun _ => threeBlocks) log).1 = some fun _ => 7 := fun _ _ _ => rfl
  have hback : ∀ lba count log, ((Blkio.read (ascii "nvme0") lba count : Prog (Blkio.machine sevens) _).exec
      (fun _ => threeBlocks) log).1 = some (xferBuf (fun _ => 7) 3) := fun _ _ _ => rfl
  rw [verifyXfers, Prog.exec_bind, hsrc]
  rw [Prog.exec_bind, hback]
  dsimp only
  rw [show xferCount 3 0 = 3 from rfl, if_pos hsame]
  rfl

/-- Three blocks of sevens are copied and verified. -/
theorem esp_copy_three_blocks :
    ((installCopyEsp (ascii "nvme0") 512 : Prog (Blkio.machine sevens) Bool).exec (fun _ => threeBlocks) []).1 = true ∧
    ∃ devs copied, ∃ back : Nat → Buf,
      ((installCopyEsp (ascii "nvme0") 512 : Prog (Blkio.machine sevens) Bool).exec (fun _ => threeBlocks) []).2 =
        [⟨.list, devs⟩] ++ copied ++ verifyEvents (fun _ => 7) (min (espBlocks devs) (espSizeBytes / ramBlockSize))
          (ascii "nvme0") (gptLayout 20000 512).espStart (xferBytes / 512) back 0
          (totalXfers (min (espBlocks devs) (espSizeBytes / ramBlockSize))) ∧
      ∀ j < totalXfers (min (espBlocks devs) (espSizeBytes / ramBlockSize)), ∀ k < xferBytes,
        back j k = image (fun _ => 7) (min (espBlocks devs * ramBlockSize) espSizeBytes) (j * xferBytes + k) := by
  have hok : ((installCopyEsp (ascii "nvme0") 512 : Prog (Blkio.machine sevens) Bool).exec
      (fun _ => threeBlocks) []).1 = true := by
    rw [installCopyEsp, Prog.exec_bind]
    show ((copyToNative ramdisk1 3 (ascii "nvme0") 2048 512 >>= _ : Prog (Blkio.machine sevens) Bool).exec _ _).1 = true
    rw [Prog.exec_bind]
    exact verifyXfers_sevens _
  exact ⟨hok, (esp_copy_in_partition rfl (.inl rfl) (ascii "nvme0") 20000 fun _ => threeBlocks).2 hok⟩

end Lorica.Proof.Install.Esp
