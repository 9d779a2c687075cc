import Lorica.Impl.Glyph.LumenClient

/-!
# The frames of the compositor

A client is in step with the compositor if each call of `recv_event` takes one frame. Headers,
structures and windows are read with `lumen_read_full`, which no segmentation disturbs. But the
size of a structure is taken from its opcode and not from the header, and where bytes are thrown
away an interrupted read ends the call in the middle of a frame. So a client stays in step
exactly if each structure has its size and no such read is interrupted (`frames_in_step_iff`).
-/

namespace Lorica.Proof.Glyph

open Lorica.Impl.Glyph Lorica.Stream List

/-! ## Frames -/

/-- A message: any opcode, and a payload of any length that the header can tell. -/
structure Frame where
  op : Nat
  payload : Bytes
  op_lt : op < 2 ^ 32
  len_lt : payload.length < 2 ^ 32

/-- A number of 32 bits on the wire. -/
def put32 (n : Nat) : Bytes :=
  [UInt8.ofNat (n % 2 ^ 8), UInt8.ofNat (n / 2 ^ 8 % 2 ^ 8), UInt8.ofNat (n / 2 ^ 16 % 2 ^ 8),
    UInt8.ofNat (n / 2 ^ 24 % 2 ^ 8)]

def Frame.header (f : Frame) : Bytes := put32 f.op ++ put32 f.payload.length

def Frame.bytes (f : Frame) : Bytes := f.header ++ f.payload

/-- What the compositor sent. -/
def wire (fs : List Frame) : Bytes := fs.flatMap Frame.bytes

theorem le32_put32 {n : Nat} (h : n < 2 ^ 32) (a b : Bytes) : le32 (a ++ put32 n ++ b) a.length = n := by
  have hb (k : Nat) : (UInt8.ofNat (k % 2 ^ 8)).toNat = k % 2 ^ 8 := by
    simp [UInt8.toNat_ofNat']
  have h0 : (a ++ put32 n ++ b).getD a.length 0 = UInt8.ofNat (n % 2 ^ 8) := by
    simp [put32]
  have h1 : (a ++ put32 n ++ b).getD (a.length + 1) 0 = UInt8.ofNat (n / 2 ^ 8 % 2 ^ 8) := by
    simp [put32]
  have h2 : (a ++ put32 n ++ b).getD (a.length + 2) 0 = UInt8.ofNat (n / 2 ^ 16 % 2 ^ 8) := by
    simp [put32]
  have h3 : (a ++ put32 n ++ b).getD (a.length + 3) 0 = UInt8.ofNat (n / 2 ^ 24 % 2 ^ 8) := by
    simp [put32]
  rw [le32, h0, h1, h2, h3, hb, hb, hb, hb]
  omega

theorem length_header (f : Frame) : f.header.length = 8 := rfl

theorem op_header (f : Frame) : le32 f.header 0 = f.op := le32_put32 f.op_lt [] _

theorem len_header (f : Frame) : le32 f.header 4 = f.payload.length := by
  have h := le32_put32 f.len_lt (put32 f.op) []
  exact h

/-! ## What a call sees -/

/-- The first windows of a list. -/
def windowsOf : Nat → Bytes → List Bytes
  | 0, _ => []
  | n + 1, bs => bs.take windowInfoSize :: windowsOf n (bs.drop windowInfoSize)

/-- How many windows of a list are kept. -/
def keptWindows (len : Nat) : Nat := if 16 < len / windowInfoSize then 16 else len / windowInfoSize

/-- The event of a frame. -/
def seen (f : Frame) : Event :=
  if (structSize f.op).isSome then eventOf f.op f.payload
  else if f.op = lumenEvWindowList then ⟨f.op, 0, .windows (windowsOf (keptWindows f.payload.length) f.payload)⟩
  else ⟨0, 0, .none⟩

/-- Each call takes one frame, and sees it. -/
def InStep : List Frame → List Answer → Prop
  | [], _ => True
  | f :: fs, as =>
    ∃ as', recvEvent ⟨f.bytes ++ wire fs, as⟩ = .ok (seen f, ⟨wire fs, as'⟩) ∧ InStep fs as'

/-! ## The answers that a frame uses -/

def leftWindows : Nat → List Answer → Except Halt (List Answer)
  | 0, as => .ok as
  | n + 1, as => do
    let as ← left windowInfoSize as
    leftWindows n as

/-- The answers left after the reads of a frame: the header, and a structure, or windows and
then the bytes that are thrown away. -/
def answersAfter (f : Frame) (as : List Answer) : Except Halt (List Answer) := do
  let as ← left 8 as
  if (structSize f.op).isSome then left f.payload.length as
  else if f.op = lumenEvWindowList then do
    let as ← leftWindows (keptWindows f.payload.length) as
    drained 256 (f.payload.length - keptWindows f.payload.length * windowInfoSize) as
  else drained 256 f.payload.length as

/-- A structure has the size that its opcode stands for. -/
def Fits (f : Frame) : Prop := ∀ size, structSize f.op = some size → f.payload.length = size

/-- All structures have their sizes, and no read is interrupted that throws bytes away. -/
def Meets : List Frame → List Answer → Prop
  | [], _ => True
  | f :: fs, as =>
    Fits f ∧ answersAfter f as ≠ .error .failed ∧ ∀ as', answersAfter f as = .ok as' → Meets fs as'

/-! ## A call -/

theorem windowsOf_take (n : Nat) (x : Bytes) : windowsOf n (x.take (n * windowInfoSize)) = windowsOf n x := by
  induction n generalizing x with
  | zero => rfl
  | succ n ih =>
    have hle : windowInfoSize ≤ (n + 1) * windowInfoSize := Nat.le_mul_of_pos_left _ n.succ_pos
    rw [windowsOf, windowsOf, take_take, Nat.min_eq_left hle, drop_take, ← ih (x.drop windowInfoSize),
      Nat.succ_mul, Nat.add_sub_cancel]

theorem recvWindows_takes {n : Nat} {x : Bytes} (hx : x.length = n * windowInfoSize) :
    Takes (recvWindows n) x (leftWindows n) (windowsOf n x) := by
  induction n generalizing x with
  | zero =>
    obtain rfl : x = [] := by simpa using hx
    exact Takes.pure []
  | succ n ih =>
    have hsize : (x.take windowInfoSize).length = windowInfoSize := by
      rw [length_take, hx, Nat.succ_mul]
      omega
    have hread := readFull_takes (x.take windowInfoSize)
    rw [hsize] at hread
    have hrest := ih (x := x.drop windowInfoSize) (by rw [length_drop, hx, Nat.succ_mul]; omega)
    have h := hread.bind (f := fun w => recvWindows n >>= fun ws => pure (w :: ws)) (hrest.map _)
    rwa [take_append_drop] at h

theorem keptWindows_le (len : Nat) : keptWindows len * windowInfoSize ≤ len := by
  have hle : keptWindows len ≤ len / windowInfoSize := by
    unfold keptWindows; split <;> omega
  exact (Nat.mul_le_mul_right _ hle).trans (Nat.div_mul_le_self _ _)

/-- A call takes a frame whose structure has its size, and no byte of the next. -/
theorem recvEvent_takes {f : Frame} (hf : Fits f) : Takes recvEvent f.bytes (answersAfter f) (seen f) := by
  have hhdr := readFull_takes f.header
  refine hhdr.bind ?_
  rw [op_header, len_header]
  cases hs : structSize f.op with
  | some size =>
    obtain rfl := hf size hs
    have hseen : seen f = eventOf f.op f.payload := by simp [seen, hs]
    simp only [hs, hseen]
    exact (readFull_takes f.payload).map (eventOf f.op)
  | none =>
    simp only [hs, seen]
    split
    · -- the windows, and what is left of the payload
      have hkept := keptWindows_le f.payload.length
      have htake : (f.payload.take (keptWindows f.payload.length * windowInfoSize)).length =
          keptWindows f.payload.length * windowInfoSize := by
        rw [length_take]; omega
      have hdrain := drain_takes 256 (f.payload.drop (keptWindows f.payload.length * windowInfoSize))
      rw [length_drop] at hdrain
      have h := (recvWindows_takes htake).bind
        (f := fun items => drain 256 (f.payload.length - keptWindows f.payload.length * windowInfoSize) >>= fun _ =>
          pure (⟨f.op, 0, .windows items⟩ : Event)) (hdrain.map _)
      rw [take_append_drop, windowsOf_take] at h
      exact h
    · exact (drain_takes 256 f.payload).map fun _ => (⟨0, 0, .none⟩ : Event)

theorem length_bytes (f : Frame) : f.bytes.length = 8 + f.payload.length := by
  rw [Frame.bytes, length_append, length_header]

/-- With a structure of another size the call ends somewhere else. -/
theorem fits_of_recvEvent {f : Frame} {rest : Bytes} {as as' : List Answer} {e : Event}
    (h : recvEvent ⟨f.bytes ++ rest, as⟩ = .ok (e, ⟨rest, as'⟩)) : Fits f := by
  intro size hsize
  have hhdr := readFull_eq f.header (f.payload ++ rest) as
  rw [length_header, ← append_assoc] at hhdr
  change (readFull 8 ⟨f.header ++ f.payload ++ rest, as⟩ >>= _) = _ at h
  rw [hhdr] at h
  cases hl : left 8 as with
  | error e => rw [hl] at h; cases h
  | ok as1 =>
    rw [hl] at h
    dsimp only [Except.map, bind, Except.bind] at h
    rw [op_header, hsize] at h
    dsimp only [bind, StateT.bind, Except.bind] at h
    cases hr : readFull size ⟨f.payload ++ rest, as1⟩ with
    | error e => rw [hr] at h; cases h
    | ok r =>
      rw [hr] at h
      have hc : r.2 = ⟨rest, as'⟩ := congrArg Prod.snd (Except.ok.inj h)
      have hlen := readFull_ok hr
      rw [hc, length_append] at hlen
      dsimp only at hlen
      omega

/-! ## Enough answers -/

theorem leftWindows_enough {n : Nat} {as : List Answer} (h : n * windowInfoSize ≤ dataCount as) :
    ∃ as', leftWindows n as = .ok as' ∧ dataCount as ≤ dataCount as' + n * windowInfoSize := by
  induction n generalizing as with
  | zero => exact ⟨as, rfl, by simp⟩
  | succ n ih =>
    rw [Nat.succ_mul] at h ⊢
    obtain ⟨as1, h1, hc1⟩ := left_enough (show windowInfoSize ≤ dataCount as by omega)
    obtain ⟨as2, h2, hc2⟩ := ih (show n * windowInfoSize ≤ dataCount as1 by omega)
    refine ⟨as2, ?_, by omega⟩
    rw [leftWindows, h1]
    exact h2

/-- With an answer for each byte, a frame is read to its end or an interruption ends the call. -/
theorem answersAfter_enough {f : Frame} {as : List Answer} (h : f.bytes.length ≤ dataCount as) :
    answersAfter f as = .error .failed ∨
      ∃ as', answersAfter f as = .ok as' ∧ dataCount as ≤ dataCount as' + f.bytes.length := by
  rw [length_bytes] at h ⊢
  obtain ⟨as1, h1, hc1⟩ := left_enough (show 8 ≤ dataCount as by omega)
  rw [answersAfter, h1]
  dsimp only [bind, Except.bind]
  split
  · obtain ⟨as2, h2, hc2⟩ := left_enough (show f.payload.length ≤ dataCount as1 by omega)
    exact .inr ⟨as2, h2, by omega⟩
  split
  · have hkept := keptWindows_le f.payload.length
    obtain ⟨as2, h2, hc2⟩ :=
      leftWindows_enough (show keptWindows f.payload.length * windowInfoSize ≤ dataCount as1 by omega)
    rw [h2]
    rcases drained_enough (show 0 < 256 by decide)
      (show f.payload.length - keptWindows f.payload.length * windowInfoSize ≤ dataCount as2 by omega) with
      h3 | ⟨as3, h3, hc3⟩
    · exact .inl h3
    · exact .inr ⟨as3, h3, by omega⟩
  · rcases drained_enough (show 0 < 256 by decide) (show f.payload.length ≤ dataCount as1 by omega) with
      h2 | ⟨as2, h2, hc2⟩
    · exact .inl h2
    · exact .inr ⟨as2, h2, by omega⟩

/-! ## All frames -/

theorem wire_cons (f : Frame) (fs : List Frame) : wire (f :: fs) = f.bytes ++ wire fs := rfl

/-- As long as the compositor is there, and however its stream is cut, each call takes one frame
exactly if structures have their sizes and no read is interrupted that throws bytes away. -/
theorem frames_in_step_iff (fs : List Frame) (as : List Answer) (henough : (wire fs).length ≤ dataCount as) :
    InStep fs as ↔ Meets fs as := by
  induction fs generalizing as with
  | nil => exact Iff.rfl
  | cons f fs ih =>
    rw [wire_cons, length_append] at henough
    have hafter := answersAfter_enough (show f.bytes.length ≤ dataCount as by omega)
    constructor
    · rintro ⟨as', hcall, hrest⟩
      have hf := fits_of_recvEvent hcall
      rw [recvEvent_takes hf] at hcall
      rcases hafter with hfail | ⟨as1, hok, hc⟩
      · rw [hfail] at hcall; cases hcall
      · rw [hok] at hcall
        cases hcall
        refine ⟨hf, by simp [hok], fun as2 h2 => ?_⟩
        rw [hok] at h2
        cases h2
        exact (ih _ (by omega)).1 hrest
    · rintro ⟨hf, hno, hrest⟩
      rcases hafter with hfail | ⟨as1, hok, hc⟩
      · exact absurd hfail hno
      · exact ⟨as1, by rw [recvEvent_takes hf, hok]; rfl, (ih _ (by omega)).2 (hrest as1 hok)⟩

/-- A key, and a message without a meaning, cut in the middle of the header and of the key. -/
def cutFrames : List Frame :=
  [⟨lumenEvKey, replicate 16 1, by decide, by decide⟩, ⟨0x99, [1, 2, 3], by decide, by decide⟩]

def cutAnswers : List Answer :=
  [.again, .data 4, .again, .data 9, .data 2, .again] ++ replicate 35 (.data 99)

theorem frames_in_step_sample : (wire cutFrames).length ≤ dataCount cutAnswers ∧ InStep cutFrames cutAnswers ∧
    Meets cutFrames cutAnswers := by
  have henough : (wire cutFrames).length ≤ dataCount cutAnswers := by decide
  have hstep : InStep cutFrames cutAnswers :=
    ⟨replicate 34 (.data 99), by decide, replicate 32 (.data 99), by decide, trivial⟩
  exact ⟨henough, hstep, (frames_in_step_iff _ _ henough).1 hstep⟩

/-- A key with 20 bytes of payload: the last four are taken for a header. -/
def longKey : Frame := ⟨lumenEvKey, replicate 20 1, by decide, by decide⟩

/-- A message without a meaning. -/
def unknown : Frame := ⟨0x99, [1, 2, 3], by decide, by decide⟩

/-- The answers for a header, and an interruption after it. -/
def interrupted : List Answer := [.data 7, .again] ++ replicate 11 (.data 0)

theorem frames_out_of_step :
    ((wire [longKey]).length ≤ dataCount (replicate 28 (.data 0)) ∧ ¬ InStep [longKey] (replicate 28 (.data 0))) ∧
    ((wire [unknown]).length ≤ dataCount interrupted ∧ ¬ InStep [unknown] interrupted) := by
  refine ⟨⟨by decide, ?_⟩, by decide, ?_⟩
  · rintro ⟨as', hcall, -⟩
    have havail : (recvEvent ⟨longKey.bytes ++ wire [], replicate 28 (.data 0)⟩).map (fun r => r.2.avail) = .ok [] :=
      congrArg (Except.map fun r => r.2.avail) hcall
    exact absurd havail (by decide)
  · rintro ⟨as', hcall, -⟩
    have havail : (recvEvent ⟨unknown.bytes ++ wire [], interrupted⟩).map (fun r => r.2.avail) = .ok [] :=
      congrArg (Except.map fun r => r.2.avail) hcall
    exact absurd havail (by decide)

end Lorica.Proof.Glyph
