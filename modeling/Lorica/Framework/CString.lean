import Lorica.Framework.Path

/-!
# C strings and lines

A buffer read from a file is used as a C string: it ends at the first zero byte
(`cstr`). `fgetsLines size` are the buffers that repeated calls of `fgets` with
a buffer of `size` bytes give: a line with its newline, or the next `size - 1`
bytes of a longer one. `fgetsLines_line` and `fgetsLines_tail` read back lines
that fit. `bufLines` are the lines of a buffer that is in memory, `tokens` those
of `strtok_r`, and `scanWord` and `scanLong` the conversions of `sscanf`.
-/

namespace Lorica

open List

def newline : UInt8 := 10

def tab : UInt8 := 9

def cr : UInt8 := 13

/-- The C string in a buffer. -/
def cstr (bs : Bytes) : Bytes := bs.takeWhile (· ≠ 0)

/-- `line[strcspn(line, "\r\n")] = 0`. -/
def chomp (line : Bytes) : Bytes := (cstr line).takeWhile fun b => b ≠ cr ∧ b ≠ newline

/-- The buffers `fgets` gives for the rest of a file, `acc` being read already. -/
def fgetsLines (size : Nat) (acc : Bytes) : Bytes → List Bytes
  | [] => if acc = [] then [] else [acc]
  | b :: bs =>
    if b = newline ∨ acc.length + 2 = size then (acc ++ [b]) :: fgetsLines size [] bs
    else fgetsLines size (acc ++ [b]) bs

variable {size : Nat} {l : Bytes}

theorem fgetsLines_acc (acc : Bytes) (hl : newline ∉ l) (hs : acc.length + l.length + 2 ≤ size) (rest : Bytes) :
    fgetsLines size acc (l ++ newline :: rest) = (acc ++ l ++ [newline]) :: fgetsLines size [] rest := by
  induction l generalizing acc with
  | nil => simp [fgetsLines]
  | cons b l ih =>
    simp only [mem_cons, not_or] at hl
    simp only [length_cons] at hs
    rw [cons_append, fgetsLines, if_neg (by simp only [Ne.symm hl.1, false_or]; omega),
      ih (acc ++ [b]) hl.2 (by simp; omega)]
    simp

/-- A line that fits is read back, and what follows it after it. -/
theorem fgetsLines_line (hl : newline ∉ l) (hs : l.length + 2 ≤ size) (rest : Bytes) :
    fgetsLines size [] (l ++ newline :: rest) = (l ++ [newline]) :: fgetsLines size [] rest := by
  have := fgetsLines_acc [] hl (by simpa using hs) rest
  simpa using this

theorem fgetsLines_acc_tail (acc : Bytes) (hl : newline ∉ l)
    (hs : acc.length + l.length + 2 ≤ size) (hne : acc ++ l ≠ []) : fgetsLines size acc l = [acc ++ l] := by
  induction l generalizing acc with
  | nil => simpa [fgetsLines] using hne
  | cons b l ih =>
    simp only [mem_cons, not_or] at hl
    simp only [length_cons] at hs
    rw [fgetsLines, if_neg (by simp only [Ne.symm hl.1, false_or]; omega),
      ih (acc ++ [b]) hl.2 (by simp; omega) (by simp)]
    simp

/-- A last line without a newline is read too. -/
theorem fgetsLines_tail (hl : newline ∉ l) (hs : l.length + 2 ≤ size)
    (hne : l ≠ []) : fgetsLines size [] l = [l] := by
  simpa using fgetsLines_acc_tail [] hl (by simpa using hs) hne

/-- Lines that fit, each with its newline, are read back in order. -/
theorem fgetsLines_flatMap (size : Nat) (ls : List Bytes)
    (h : ∀ l ∈ ls, newline ∉ l ∧ l.length + 2 ≤ size) (rest : Bytes) :
    fgetsLines size [] ((ls.flatMap fun l => l ++ [newline]) ++ rest) =
      (ls.map fun l => l ++ [newline]) ++ fgetsLines size [] rest := by
  induction ls with
  | nil => simp
  | cons l ls ih =>
    obtain ⟨hn, hs⟩ := h l mem_cons_self
    rw [flatMap_cons, map_cons, append_assoc, append_assoc, singleton_append,
      fgetsLines_line hn hs, ih fun l hl => h l (mem_cons_of_mem _ hl), cons_append]

theorem takeWhile_append_stop {α : Type} (p : α → Bool) (xs : List α) {y : α} (hy : p y = false) (ys : List α) :
    (xs ++ y :: ys).takeWhile p = xs.takeWhile p := by
  induction xs with
  | nil => simp [hy]
  | cons x xs ih =>
    rw [cons_append, takeWhile_cons, takeWhile_cons, ih]

theorem takeWhile_ne_self {c : UInt8} (h : c ∉ l) : l.takeWhile (· ≠ c) = l :=
  takeWhile_eq_self_iff.mpr fun b hb => by
    simp only [decide_eq_true_eq]
    rintro rfl; exact h hb

theorem takeWhile_ne_of_not_mem {c : UInt8} (h : c ∉ l) (rest : Bytes) :
    (l ++ c :: rest).takeWhile (· ≠ c) = l := by
  rw [takeWhile_append_stop _ l (by simp)]
  exact takeWhile_ne_self h

theorem cstr_of_not_mem (h : (0 : UInt8) ∉ l) : cstr l = l := takeWhile_ne_self h

/-- One call of `fgets`: what it reads, and what is left of the file. -/
def fgets : Nat → Bytes → Bytes × Bytes
  | _, [] => ([], [])
  | 0, bs => ([], bs)
  | 1, bs => ([], bs)
  | size + 2, b :: bs =>
    if b = newline then ([b], bs)
    else (b :: (fgets (size + 1) bs).1, (fgets (size + 1) bs).2)

/-- A line that fits is read whole. -/
theorem fgets_line (hl : newline ∉ l) (hs : l.length + 2 ≤ size) (rest : Bytes) :
    fgets size (l ++ newline :: rest) = (l ++ [newline], rest) := by
  induction l generalizing size with
  | nil =>
    obtain ⟨n, rfl⟩ : ∃ n, size = n + 2 := ⟨size - 2, by simp at hs; omega⟩
    simp [fgets]
  | cons b l ih =>
    obtain ⟨n, rfl⟩ : ∃ n, size = n + 2 := ⟨size - 2, by simp at hs; omega⟩
    simp only [mem_cons, not_or] at hl
    simp only [length_cons] at hs
    simp [fgets, Ne.symm hl.1, ih hl.2 (show l.length + 2 ≤ n + 1 by omega)]

/-- The lines of a buffer, `acc` being read already; nothing stands after a last
newline. -/
def bufLines (acc : Bytes) : Bytes → List Bytes
  | [] => if acc = [] then [] else [acc]
  | b :: bs => if b = newline then acc :: bufLines [] bs else bufLines (acc ++ [b]) bs

/-- The byte ` `. -/
def space : UInt8 := 32

/-- The tokens of `strtok_r` with the separator `sep`. -/
def tokens (sep : UInt8) (bs : Bytes) : List Bytes := (bs.splitOn sep).filter (· ≠ [])

def isSpace (b : UInt8) : Bool := b = space || (9 ≤ b && b ≤ 13)

def isDigit (b : UInt8) : Bool := 48 ≤ b && b ≤ 57

/-- `%<width>s` of `sscanf`: a word, and what follows it. -/
def scanWord (width : Nat) (bs : Bytes) : Option (Bytes × Bytes) :=
  let bs := bs.dropWhile isSpace
  let word := (bs.takeWhile fun b => !isSpace b).take width
  if word = [] then none else some (word, bs.drop word.length)

/-- `%ld` of `sscanf`: what follows a number. -/
def scanLong (bs : Bytes) : Option Bytes :=
  let bs := bs.dropWhile isSpace
  let bs := if bs.head? = some 43 ∨ bs.head? = some 45 then bs.drop 1 else bs
  if bs.takeWhile isDigit = [] then none else some (bs.dropWhile isDigit)

end Lorica
