import Lorica.Framework.Prog

/-!
# The machine of a program that uses a disk

A disk is a number of bytes, read and written at any offset. A read or write that goes
beyond it fails, and the environment may let any fail; a write that fails, or in whose
middle a crash comes, has written a prefix of its bytes (`tear`).

`Strict bad p` says that `p` only reads and gives up with `bad` when a read fails, so that
faults can change its answer to `bad` only (`Strict.wp`). `Within R p d` says that what `p` reads in `d` lies in `R`, so that it gives the same
on every disk that is the same there (`Within.value_eq`). `WritesOn A I w p d Q` is about the
time between the writes of a run: `I` holds after the first and before any other
(`WritesOn.between`).
-/

namespace Lorica

/-- A buffer; its length is known where it is used. -/
abbrev Buf := Nat → UInt8

structure Disk where
  size : Nat
  bytes : Buf

namespace Disk

/-- The `len` bytes at `off`. -/
def slice (d : Disk) (off len : Nat) : Buf := fun i => if i < len then d.bytes (off + i) else 0

/-- The disk with the first `len` bytes of `buf` at `off`. -/
def overwrite (d : Disk) (off len : Nat) (buf : Buf) : Disk where
  size := d.size
  bytes i := if off ≤ i ∧ i < off + len then buf (i - off) else d.bytes i

/-- The disk has `len` bytes at `off`. -/
def Has (d : Disk) (off len : Nat) : Prop := len = 0 ∨ off + len ≤ d.size

instance (d : Disk) (off len : Nat) : Decidable (d.Has off len) := inferInstanceAs (Decidable (_ ∨ _))

/-- How many of `len` bytes at `off` are on the disk. -/
def fit (d : Disk) (off len : Nat) : Nat := min len (d.size - off)

inductive Op
  | read (off len : Nat)
  | write (off len : Nat) (buf : Buf)

def Op.Ret : Op → Type
  | .read _ _ => Option Buf
  | .write _ _ _ => Bool

def Op.isWrite : Op → Bool
  | .read _ _ => false
  | .write _ _ _ => true

/-- An operation works, or fails after `k` bytes. -/
inductive Choice
  | ok
  | fail (k : Nat)

def stepRead (off len : Nat) : Choice → Disk → Option Buf
  | .ok, d => if d.Has off len then some (d.slice off len) else none
  | .fail _, _ => none

def stepWrite (off len : Nat) (buf : Buf) : Choice → Disk → Bool × Disk
  | .ok, d => if d.Has off len then (true, d.overwrite off len buf) else (false, d.overwrite off (d.fit off len) buf)
  | .fail k, d => (false, d.overwrite off (min k (d.fit off len)) buf)

def step : (o : Op) → Choice → Disk → o.Ret × Disk
  | .read off len, c, d => (stepRead off len c d, d)
  | .write off len buf, c, d => stepWrite off len buf c d

def tear : Op → Nat → Disk → Disk
  | .read _ _, _, d => d
  | .write off len buf, k, d => d.overwrite off (min k (d.fit off len)) buf

abbrev machine : Machine := ⟨Disk, Op, Op.Ret, Choice, step, tear⟩

/-- Whether operations may fail. -/
def Allows (faults : Bool) : Choice → Prop
  | .ok => True
  | .fail _ => faults = true

/-! ## Bytes -/

variable {d d' : Disk} {off len i : Nat} {buf : Buf}

@[ext] theorem ext' (hs : d.size = d'.size) (hb : ∀ i, d.bytes i = d'.bytes i) : d = d' := by
  obtain ⟨n, b⟩ := d
  obtain ⟨n', b'⟩ := d'
  have hb : b = b' := funext hb
  simp only at hs
  rw [hs, hb]

theorem slice_of_lt (h : i < len) : d.slice off len i = d.bytes (off + i) := if_pos h

@[simp] theorem overwrite_size : (d.overwrite off len buf).size = d.size := rfl

theorem overwrite_in (h : off ≤ i) (h' : i < off + len) : (d.overwrite off len buf).bytes i = buf (i - off) :=
  if_pos ⟨h, h'⟩

theorem overwrite_out (h : i < off ∨ off + len ≤ i) : (d.overwrite off len buf).bytes i = d.bytes i :=
  if_neg (by omega)

@[simp] theorem overwrite_zero : d.overwrite off 0 buf = d :=
  ext' rfl fun _ => overwrite_out (by omega)

/-- Writing on from where a write has stopped. -/
theorem overwrite_append (n k : Nat) :
    (d.overwrite off n buf).overwrite (off + n) k (fun i => buf (n + i)) = d.overwrite off (n + k) buf := by
  refine ext' rfl fun i => ?_
  by_cases hi : off + n ≤ i ∧ i < off + n + k
  · rw [overwrite_in hi.1 hi.2, overwrite_in (by omega) (by omega)]
    congr 1
    omega
  · rw [overwrite_out (by omega)]
    by_cases hi' : off ≤ i ∧ i < off + n
    · rw [overwrite_in hi'.1 hi'.2, overwrite_in (by omega) (by omega)]
    · rw [overwrite_out (by omega), overwrite_out (by omega)]

/-- Two writes that do not meet can be swapped. -/
theorem overwrite_comm {off' len' : Nat} {buf' : Buf} (h : off + len ≤ off' ∨ off' + len' ≤ off) :
    (d.overwrite off len buf).overwrite off' len' buf' = (d.overwrite off' len' buf').overwrite off len buf := by
  refine ext' rfl fun i => ?_
  by_cases hi : off ≤ i ∧ i < off + len
  · rw [overwrite_out (by omega), overwrite_in hi.1 hi.2, overwrite_in hi.1 hi.2]
  · rw [overwrite_out (d := d.overwrite off' len' buf') (by omega)]
    by_cases hi' : off' ≤ i ∧ i < off' + len'
    · rw [overwrite_in hi'.1 hi'.2, overwrite_in hi'.1 hi'.2]
    · rw [overwrite_out (by omega), overwrite_out (by omega), overwrite_out (by omega)]

theorem slice_congr (h : ∀ i, off ≤ i → i < off + len → d'.bytes i = d.bytes i) :
    d'.slice off len = d.slice off len := by
  funext i
  by_cases hi : i < len
  · rw [slice_of_lt hi, slice_of_lt hi, h _ (by omega) (by omega)]
  · rw [slice, if_neg hi, slice, if_neg hi]

end Disk

/-- Programs that use a disk. -/
abbrev Dev := Prog Disk.machine

namespace Dev

open Disk

def read (off len : Nat) : Dev (Option Buf) := Prog.call (M := machine) (.read off len)
def write (off len : Nat) (buf : Buf) : Dev Bool := Prog.call (M := machine) (.write off len buf)

abbrev WP {α : Type} (faults : Bool) (p : Dev α) (d : Disk) (Q : α → Disk → Prop) (C : Op → Disk → Prop) : Prop :=
  Lorica.WP (M := machine) (Allows faults) p d Q C

/-- The result of a program in a run without faults. -/
abbrev value {α : Type} (p : Dev α) (d : Disk) : α := Prog.value (M := machine) .ok p d

section

variable {α β : Type} {faults : Bool} {d d' : Disk} {off len : Nat} {buf : Buf} {Q : α → Disk → Prop}
  {C : Op → Disk → Prop}

/-- A read gives the bytes, or nothing: outside the disk, or by a fault. -/
theorem WP.read {f : Option Buf → Dev α} (hC : C (.read off len) d)
    (hsome : d.Has off len → WP faults (f (some (d.slice off len))) d Q C)
    (hnone : ¬ d.Has off len ∨ faults = true → WP faults (f none) d Q C) :
    WP faults (Dev.read off len >>= f) d Q C := by
  refine ⟨hC, fun c hc => ?_⟩
  change WP faults (f (stepRead off len c d)) d Q C
  cases c with
  | ok =>
    rw [stepRead]
    split
    · exact hsome (by assumption)
    · exact hnone (.inl (by assumption))
  | fail k => exact hnone (.inr hc)

/-- A write writes all, or fails after a prefix. -/
theorem WP.write {f : Bool → Dev α} (hC : C (.write off len buf) d)
    (hok : d.Has off len → WP faults (f true) (d.overwrite off len buf) Q C)
    (hfail : ∀ k, ¬ d.Has off len ∨ faults = true →
      WP faults (f false) (d.overwrite off (min k (d.fit off len)) buf) Q C) :
    WP faults (Dev.write off len buf >>= f) d Q C := by
  refine ⟨hC, fun c hc => ?_⟩
  change WP faults (f (stepWrite off len buf c d).1) (stepWrite off len buf c d).2 Q C
  cases c with
  | ok =>
    rw [stepWrite]
    split
    · exact hok (by assumption)
    · have := hfail (d.fit off len) (.inl (by assumption))
      rwa [Nat.min_self] at this
  | fail k => exact hfail k (.inr hc)

/-! ## Writing -/

/-- In the states in which the program writes, but for the first time, `I` holds. `w` says
whether there was a write before. -/
def WritesOn (A : Choice → Prop) (I : Disk → Prop) : Bool → Dev α → Disk → (Bool → α → Disk → Prop) → Prop
  | w, .pure a, d, Q => Q w a d
  | w, .op o k, d, Q => (w = true → o.isWrite = true → I d) ∧
    ∀ c, A c → WritesOn A I (w || o.isWrite) (k (step o c d).1) (step o c d).2 Q

section

variable {A : Choice → Prop} {I : Disk → Prop} {σ : Nat → Choice} {p : Dev α} {w : Bool} {n : Nat}
  {Q' R' : Bool → α → Disk → Prop}

theorem WritesOn.mono (h : WritesOn A I w p d Q') (hQ : ∀ w a d', Q' w a d' → R' w a d') : WritesOn A I w p d R' := by
  induction p generalizing d w with
  | pure a => exact hQ w a d h
  | op o k ih => exact ⟨h.1, fun c hc => ih _ (h.2 c hc)⟩

theorem WritesOn.bind {f : α → Dev β} {R : Bool → β → Disk → Prop} (h : WritesOn A I w p d Q')
    (hf : ∀ w a d', Q' w a d' → WritesOn A I w (f a) d' R) : WritesOn A I w (p >>= f) d R := by
  induction p generalizing d w with
  | pure a => exact hf w a d h
  | op o k ih => exact ⟨h.1, fun c hc => ih _ (h.2 c hc)⟩

theorem WritesOn.of_wp (h : Lorica.WP (M := machine) A p d Q fun o d' => o.isWrite = true → I d') :
    WritesOn A I w p d fun _ => Q := by
  induction p generalizing d w with
  | pure a => exact h
  | op o k ih => exact ⟨fun _ => h.1, fun c hc => ih _ (h.2 c hc)⟩

theorem WritesOn.of_reads (h : Lorica.WP (M := machine) A p d Q fun o _ => o.isWrite = false) :
    WritesOn A I w p d fun w' a d' => w' = w ∧ Q a d' := by
  induction p generalizing d with
  | pure a => exact ⟨rfl, h⟩
  | op o k ih =>
    refine ⟨fun _ ho => absurd ho (by rw [h.1]; exact Bool.false_ne_true), fun c hc => ?_⟩
    rw [h.1, Bool.or_false]
    exact ih _ (h.2 c hc)

/-- When there was a write, `I` holds until the next: reads change nothing. -/
theorem WritesOn.after (h : WritesOn A I true p d Q') (hσ : ∀ n, A (σ n))
    (hafter : ∃ o ∈ (p.trace σ d).drop n, Op.isWrite o = true) : I (p.after σ n d) := by
  induction p generalizing d σ n with
  | pure a =>
    obtain ⟨o, ho, -⟩ := hafter
    rw [Prog.trace, List.drop_nil] at ho
    cases ho
  | op o k ih =>
    have hnext : ∀ n, (∃ w ∈ ((Prog.op (M := machine) o k).trace σ d).drop (n + 1), Op.isWrite w = true) →
        I ((Prog.op (M := machine) o k).after σ (n + 1) d) :=
      fun n hw => ih _ (h.2 _ (hσ 0)) (fun n => hσ (n + 1)) hw
    cases n with
    | succ n => exact hnext n hafter
    | zero =>
      cases o with
      | write off len buf => exact h.1 rfl rfl
      | read off len =>
        have hrest : ∃ o ∈ ((Prog.op (M := machine) (.read off len) k).trace σ d).drop 1, Op.isWrite o = true := by
          obtain ⟨o, ho, hwrite⟩ := hafter
          rcases List.mem_cons.mp ho with rfl | ho
          · cases hwrite
          · exact ⟨o, ho, hwrite⟩
        have hI := hnext 0 hrest
        rw [show (Prog.op (M := machine) (.read off len) k).after σ (0 + 1) d = d from Prog.after_zero _ _ _] at hI
        exact hI

/-- Between the first write of a run and a later one, `I` holds. -/
theorem WritesOn.between (h : WritesOn A I false p d Q') (hσ : ∀ n, A (σ n))
    (hbefore : ∃ o ∈ (p.trace σ d).take n, Op.isWrite o = true)
    (hafter : ∃ o ∈ (p.trace σ d).drop n, Op.isWrite o = true) : I (p.after σ n d) := by
  induction p generalizing d σ n with
  | pure a =>
    obtain ⟨o, ho, -⟩ := hafter
    rw [Prog.trace, List.drop_nil] at ho
    cases ho
  | op o k ih =>
    cases n with
    | zero =>
      obtain ⟨o, ho, -⟩ := hbefore
      cases ho
    | succ n =>
      cases o with
      | write off len buf => exact (h.2 _ (hσ 0)).after (fun n => hσ (n + 1)) hafter
      | read off len =>
        obtain ⟨o, ho, hwrite⟩ := hbefore
        rcases List.mem_cons.mp ho with rfl | ho
        · cases hwrite
        · exact ih _ (h.2 _ (hσ 0)) (fun n => hσ (n + 1)) ⟨o, ho, hwrite⟩ hafter

end

/-! ## Reading -/

/-- A read within `R`. -/
inductive ReadIn (R : Nat → Prop) : Op → Prop
  | read {off len : Nat} (h : ∀ i, off ≤ i → i < off + len → R i) : ReadIn R (.read off len)

/-- The operations that only read. -/
abbrev Reads : Op → Prop := ReadIn fun _ => True

variable {R : Nat → Prop}

theorem ReadIn.keep (o : Op) (h : ReadIn R o) (d : Disk) : (step o .ok d).2 = d := by
  cases h; rfl

theorem Reads.read : Reads (.read off len) := ReadIn.read fun _ _ _ => trivial

variable {p : Dev α}

theorem value_bind (h : Uses Reads p) (f : α → Dev β) (d : Disk) : value (p >>= f) d = value (f (value p d)) d :=
  Prog.value_bind (M := machine) ReadIn.keep h f d

theorem value_read (d : Disk) : value (Dev.read off len) d = if d.Has off len then some (d.slice off len) else none :=
  rfl

/-- A program that only reads, and that answers `bad` as soon as a read fails. -/
def Strict (bad : α) : Dev α → Prop
  | .pure _ => True
  | .op (.read _ _) k => k none = .pure bad ∧ ∀ b, Strict bad (k (some b))
  | .op (.write _ _ _) _ => False

section

variable {bad : α}

theorem Strict.pure (bad a : α) : Strict bad (Pure.pure a) := trivial

theorem Strict.read : Strict none (Dev.read off len) := ⟨rfl, fun _ => trivial⟩

variable {p : Dev α}

theorem Strict.bind {bad' : β} {f : α → Dev β} (h : Strict bad p) (hbad : f bad = .pure bad')
    (hf : ∀ a, Strict bad' (f a)) : Strict bad' (p >>= f) := by
  induction p with
  | pure a => exact hf a
  | op o k ih =>
    cases o with
    | read off len =>
      refine ⟨?_, fun b => ih _ (h.2 b)⟩
      change (k none >>= f) = _
      rw [h.1]
      exact hbad
    | write off len buf => exact h.elim

theorem Strict.uses (h : Strict bad p) : Uses Reads p := by
  induction p with
  | pure a => trivial
  | op o k ih =>
    cases o with
    | read off len =>
      refine ⟨.read, fun r => ?_⟩
      cases r with
      | none =>
        rw [h.1]
        exact .pure bad
      | some b => exact ih _ (h.2 b)
    | write off len buf => exact h.elim

/-- Faults can make it answer `bad`, and nothing else. -/
theorem Strict.wp (h : Strict bad p) (hC : ∀ off len, C (.read off len) d) :
    WP faults p d (fun r d' => d' = d ∧ (r = value p d ∨ r = bad ∧ faults = true)) C := by
  induction p with
  | pure a => exact ⟨rfl, .inl rfl⟩
  | op o k ih =>
    cases o with
    | read off len =>
      have hv : value (.op (M := machine) (.read off len) k) d = value (k (stepRead off len .ok d)) d :=
        Prog.value_op (M := machine) ReadIn.keep Reads.read k d
      refine Dev.WP.read (hC _ _) (fun hin => ?_) fun hout => ?_
      · rw [hv, stepRead, if_pos hin]
        exact ih _ (h.2 _)
      · rw [h.1]
        refine ⟨rfl, ?_⟩
        rcases hout with hout | hfault
        · rw [hv, stepRead, if_neg hout, h.1]
          exact .inl rfl
        · exact .inr ⟨rfl, hfault⟩
    | write off len buf => exact h.elim

end

/-- All that the program reads in `d` lies in `R`. -/
def Within (R : Nat → Prop) : Dev α → Disk → Prop
  | .pure _, _ => True
  | .op o k, d => ReadIn R o ∧ Within R (k (step o .ok d).1) d

theorem Within.bind {f : α → Dev β} (h : Within R p d)
    (hf : Within R (f (value p d)) d) : Within R (p >>= f) d := by
  induction p with
  | pure a => exact hf
  | op o k ih =>
    have hv : value (.op (M := machine) o k) d = value (k (step o .ok d).1) d :=
      Prog.value_op (M := machine) ReadIn.keep h.1 k d
    rw [hv] at hf
    exact ⟨h.1, ih _ h.2 hf⟩

theorem Within.read (h : ∀ i, off ≤ i → i < off + len → R i) : Within R (Dev.read off len) d :=
  ⟨.read h, trivial⟩

/-- It gives the same on a disk that is the same there. -/
theorem Within.value_eq (h : Within R p d) (hs : d'.size = d.size)
    (hR : ∀ i, R i → d'.bytes i = d.bytes i) : value p d' = value p d := by
  induction p with
  | pure a => rfl
  | op o k ih =>
    have hstep : (step o .ok d').1 = (step o .ok d).1 := by
      obtain ⟨hin⟩ := h.1
      change (if _ then some _ else none) = if _ then some _ else none
      rw [slice_congr fun i hi hi' => hR i (hin i hi hi')]
      exact if_congr (by rw [Has, Has, hs]) rfl rfl
    have hv : ∀ d, value (.op (M := machine) o k) d = value (k (step o .ok d).1) d := fun d =>
      Prog.value_op (M := machine) ReadIn.keep h.1 k d
    rw [hv, hv, hstep]
    exact ih _ h.2

end

end Dev

end Lorica
