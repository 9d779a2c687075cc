import Lorica.Impl.Herald.Manifest

/-!
# What an accepted manifest holds

The fields of a manifest are written line by line, so what holds of them at the end is kept
by each line (`Sane`). Values are searched for control characters, keys are not: the name of a
binary in `caps.<binary>` is part of the key, and is stored with whatever characters it has. An
accepted manifest is clean exactly if the lines that name binaries are (`manifest_clean_iff`).
-/

namespace Lorica.Proof.Herald

open Lorica.Impl.Herald List

/-- A value without control characters, in an array of `n` characters and a terminator. -/
def Stored (n : Nat) (v : Bytes) : Prop := v.length ≤ n ∧ v.any isControl = false

/-- What is asked of an accepted manifest. -/
structure CleanManifest (m : Manifest) : Prop where
  id : manifestIsBareName m.id = true
  exec : m.exec ≠ [] → manifestIsBareName m.exec = true
  binaries : ∀ b ∈ m.bincaps, manifestIsBareName b.binary = true ∧ Stored 63 b.binary
  values : Stored 63 m.id ∧ Stored 63 m.name ∧ Stored 31 m.version ∧ Stored 63 m.exec ∧ Stored 255 m.caps ∧
    Stored 255 m.depends ∧ Stored 255 m.paths ∧ ∀ b ∈ m.bincaps, Stored 255 b.caps
  count : m.bincaps.length ≤ heraldMaxBincaps
  required : m.id ≠ [] ∧ m.name ≠ [] ∧ m.version ≠ [] ∧ (m.isSystem = false → m.exec ≠ [])

/-- What each line keeps. -/
structure Sane (m : Manifest) : Prop where
  id : m.id = [] ∨ manifestIsBareName m.id = true
  exec : m.exec = [] ∨ manifestIsBareName m.exec = true
  binaries : ∀ b ∈ m.bincaps, manifestIsBareName b.binary = true ∧ b.binary.length ≤ 63
  values : Stored 63 m.id ∧ Stored 63 m.name ∧ Stored 31 m.version ∧ Stored 63 m.exec ∧ Stored 255 m.caps ∧
    Stored 255 m.depends ∧ Stored 255 m.paths ∧ ∀ b ∈ m.bincaps, Stored 255 b.caps
  count : m.bincaps.length ≤ heraldMaxBincaps

theorem stored_take {v : Bytes} (h : v.any isControl = false) (n : Nat) : Stored n (v.take n) := by
  refine ⟨length_take_le n v, ?_⟩
  simp only [any_eq_false] at h ⊢
  exact fun b hb => h b (mem_of_mem_take hb)

theorem stored_nil (n : Nat) : Stored n [] := ⟨Nat.zero_le n, rfl⟩

/-- A name that is cut is still one. -/
theorem manifestIsBareName_take {v : Bytes} (h : manifestIsBareName v = true) :
    manifestIsBareName (v.take 63) = true := by
  simp only [manifestIsBareName, decide_eq_true_eq] at h ⊢
  obtain ⟨hne, hs, hd, hdd⟩ := h
  -- a name of one or two characters is not cut
  have hshort : ∀ u : Bytes, u.length < 63 → v.take 63 = u → v = u := by
    intro u hu he
    have hl : v.length ≤ 63 := by
      have := congrArg length he
      simp only [length_take] at this
      omega
    rwa [take_of_length_le hl] at he
  refine ⟨fun he => hne (hshort [] (by decide) he), fun hm => hs (mem_of_mem_take hm),
    fun he => hd (hshort dot (by decide) he), fun he => hdd (hshort dotdot (by decide) he)⟩

/-! ## Lines -/

def lineText (l : Bytes) : Bytes := rtrim (cstr (l.take 511))

/-- Lines that say nothing. -/
def skipped (l : Bytes) : Prop := lineText l = [] ∨ (lineText l).head? = some 35 ∨ equals ∉ lineText l

instance (l : Bytes) : Decidable (skipped l) := inferInstanceAs (Decidable (_ ∨ _ ∨ _))

def lineKey (l : Bytes) : Bytes := (rtrim ((lineText l).takeWhile (· ≠ equals))).dropWhile isBlank

def lineVal (l : Bytes) : Bytes := ((lineText l).dropWhile (· ≠ equals)).drop 1

/-- The binary that a line sets a policy for. -/
def binaryOf (l : Bytes) : Option Bytes :=
  if ¬ skipped l ∧ capsDot.isPrefixOf (lineKey l) = true ∧
      manifestIsBareName ((lineKey l).drop capsDot.length) = true then
    some ((lineKey l).drop capsDot.length)
  else none

theorem manifestLine_eq (m : Manifest) (l : Bytes) : manifestLine m l = if skipped l then some m
      else if (lineVal l).any isControl = true then none else manifestField m (lineKey l) (lineVal l) := rfl

/-- The binaries that have a policy, the names cut. -/
def policies (m : Manifest) : List Bytes := m.bincaps.map Bincap.binary

/-- The binaries that a key adds. -/
def added (key : Bytes) : List Bytes :=
  if capsDot.isPrefixOf key = true ∧ manifestIsBareName (key.drop capsDot.length) = true then
    [(key.drop capsDot.length).take 63]
  else []

/-- A field is written: what is sane stays so, and a binary is added if there is room. -/
theorem Sane.field {m m' : Manifest} {key val : Bytes} (h : Sane m) (hv : val.any isControl = false)
    (hm : manifestField m key val = some m') :
    Sane m' ∧ policies m' = (policies m ++ added key).take heraldMaxBincaps := by
  obtain ⟨h1, h2, h3, h4, h5, h6, h7, h8⟩ := h.values
  have hkeep : added key = [] → policies m = (policies m ++ added key).take heraldMaxBincaps := by
    intro hk
    rw [hk, append_nil]
    simpa [policies] using h.count
  -- no other key begins as those with a binary do
  have hother : capsDot.isPrefixOf key = false → added key = [] := fun hk => by simp [added, hk]
  unfold manifestField at hm
  split at hm
  · rename_i hk
    split at hm
    · rename_i hb
      obtain rfl := Option.some.inj hm
      exact ⟨⟨.inr (manifestIsBareName_take hb), h.exec, h.binaries,
        ⟨stored_take hv 63, h2, h3, h4, h5, h6, h7, h8⟩, h.count⟩, hkeep (hother (by subst hk; decide))⟩
    · cases hm
  split at hm
  · rename_i hk
    obtain rfl := Option.some.inj hm
    exact ⟨⟨h.id, h.exec, h.binaries, ⟨h1, stored_take hv 63, h3, h4, h5, h6, h7, h8⟩, h.count⟩,
      hkeep (hother (by subst hk; decide))⟩
  split at hm
  · rename_i hk
    obtain rfl := Option.some.inj hm
    exact ⟨⟨h.id, h.exec, h.binaries, ⟨h1, h2, stored_take hv 31, h4, h5, h6, h7, h8⟩, h.count⟩,
      hkeep (hother (by subst hk; decide))⟩
  split at hm
  · rename_i hk
    split at hm
    · rename_i hb
      obtain rfl := Option.some.inj hm
      exact ⟨⟨h.id, .inr (manifestIsBareName_take hb), h.binaries,
        ⟨h1, h2, h3, stored_take hv 63, h5, h6, h7, h8⟩, h.count⟩, hkeep (hother (by subst hk; decide))⟩
    · cases hm
  split at hm
  · rename_i hk
    obtain rfl := Option.some.inj hm
    exact ⟨⟨h.id, h.exec, h.binaries, ⟨h1, h2, h3, h4, stored_take hv 255, h6, h7, h8⟩, h.count⟩,
      hkeep (hother (by subst hk; decide))⟩
  split at hm
  · rename_i hk
    dsimp only at hm
    split at hm
    · rename_i hb
      obtain rfl := Option.some.inj hm
      refine ⟨⟨h.id, h.exec, ?_, ⟨h1, h2, h3, h4, h5, h6, h7, ?_⟩, ?_⟩, ?_⟩
      · simp only [forall_mem_append, forall_mem_singleton]
        exact ⟨h.binaries, manifestIsBareName_take hb.1, length_take_le 63 _⟩
      · simp only [forall_mem_append, forall_mem_singleton]
        exact ⟨h8, stored_take hv 255⟩
      · simp only [length_append]
        exact hb.2
      · simp only [policies, added, hk, hb.1, and_self, if_true, map_append]
        exact (take_of_length_le (by simpa using hb.2)).symm
    · rename_i hb
      obtain rfl := Option.some.inj hm
      refine ⟨h, ?_⟩
      by_cases hbin : manifestIsBareName (key.drop capsDot.length) = true
      · -- there is no room
        have hfull : heraldMaxBincaps ≤ (policies m).length := by
          simpa [policies, hbin] using hb
        rw [take_append_of_le_length hfull]
        simpa [policies] using h.count
      · exact hkeep (by simp [added, hbin])
  rename_i hk
  have hadd := hkeep (hother (Bool.eq_false_iff.mpr hk))
  split at hm
  · obtain rfl := Option.some.inj hm
    exact ⟨⟨h.id, h.exec, h.binaries, ⟨h1, h2, h3, h4, h5, stored_take hv 255, h7, h8⟩, h.count⟩, hadd⟩
  split at hm
  · obtain rfl := Option.some.inj hm
    exact ⟨⟨h.id, h.exec, h.binaries, ⟨h1, h2, h3, h4, h5, h6, stored_take hv 255, h8⟩, h.count⟩, hadd⟩
  split at hm
  · obtain rfl := Option.some.inj hm
    exact ⟨⟨h.id, h.exec, h.binaries, ⟨h1, h2, h3, h4, h5, h6, h7, h8⟩, h.count⟩, hadd⟩
  · obtain rfl := Option.some.inj hm
    exact ⟨h, hadd⟩

theorem Sane.line {m m' : Manifest} {l : Bytes} (h : Sane m) (hm : manifestLine m l = some m') :
    Sane m' ∧ policies m' = (policies m ++ (binaryOf l).toList.map (·.take 63)).take heraldMaxBincaps := by
  rw [manifestLine_eq] at hm
  split at hm
  · rename_i hs
    obtain rfl := Option.some.inj hm
    refine ⟨h, ?_⟩
    rw [take_of_length_le]
    · simp [binaryOf, hs]
    · simpa [binaryOf, hs, policies] using h.count
  · rename_i hs
    split at hm
    · cases hm
    · rename_i hv
      have hb : added (lineKey l) = (binaryOf l).toList.map (·.take 63) := by
        simp only [added, binaryOf, hs, not_false_eq_true, true_and]
        split <;> rfl
      rw [← hb]
      exact h.field (by simpa using hv) hm

theorem take_take_append {α : Type} (n : Nat) (xs ys : List α) : (xs.take n ++ ys).take n = (xs ++ ys).take n := by
  rw [take_append, take_append, take_take, Nat.min_self, length_take]
  congr 2
  omega

theorem Sane.lines {m m' : Manifest} {ls : List Bytes} (h : Sane m) (hm : manifestLines m ls = some m') :
    Sane m' ∧ policies m' = (policies m ++ (ls.filterMap binaryOf).map (·.take 63)).take heraldMaxBincaps := by
  induction ls generalizing m with
  | nil =>
    obtain rfl := Option.some.inj hm
    refine ⟨h, ?_⟩
    simpa [policies] using h.count
  | cons l ls ih =>
    simp only [manifestLines] at hm
    cases hl : manifestLine m l with
    | none => rw [hl] at hm; cases hm
    | some m1 =>
      rw [hl] at hm
      obtain ⟨hs, hp⟩ := h.line hl
      obtain ⟨hs', hp'⟩ := ih hs hm
      refine ⟨hs', ?_⟩
      rw [hp', hp, take_take_append, append_assoc, filterMap_cons]
      cases binaryOf l <;> rfl

/-- The binaries that the lines of a buffer name, as far as there is room for them. -/
def namedBinaries (buf : Bytes) : List Bytes := ((bufLines [] buf).filterMap binaryOf).take heraldMaxBincaps

theorem sane_empty : Sane .empty :=
  ⟨.inl rfl, .inl rfl, by simp [Manifest.empty], ⟨stored_nil _, stored_nil _, stored_nil _, stored_nil _, stored_nil _,
    stored_nil _, stored_nil _, by simp [Manifest.empty]⟩, by simp [Manifest.empty]⟩

/-- An accepted manifest is clean exactly if no line that gives a binary its policy has a control
character in the name of the binary, as far as that is stored. -/
theorem manifest_clean_iff {buf : Bytes} {m : Manifest} (hm : manifestParse buf = some m) :
    CleanManifest m ↔ ∀ b ∈ namedBinaries buf, (b.take 63).any isControl = false := by
  unfold manifestParse at hm
  cases hl : manifestLines .empty (bufLines [] buf) with
  | none => rw [hl] at hm; cases hm
  | some m' =>
    simp only [hl] at hm
    obtain ⟨hs, hp⟩ := sane_empty.lines hl
    split at hm
    · cases hm
    rename_i hreq
    split at hm
    · cases hm
    rename_i hexec
    obtain rfl := Option.some.inj hm
    rw [not_or, not_or] at hreq
    have hnames : policies m' = (namedBinaries buf).map (·.take 63) := by
      rw [hp]; exact (map_take ..).symm
    have hiff : (∀ b ∈ namedBinaries buf, (b.take 63).any isControl = false) ↔
        ∀ b ∈ m'.bincaps, b.binary.any isControl = false := by
      have hmem : (∀ v ∈ policies m', v.any isControl = false) ↔
          ∀ v ∈ (namedBinaries buf).map (·.take 63), v.any isControl = false := by rw [hnames]
      rw [forall_mem_map, policies, forall_mem_map] at hmem
      exact hmem.symm
    rw [hiff]
    constructor
    · exact fun hc b hb => (hc.binaries b hb).2.2
    · intro hb
      exact ⟨hs.id.resolve_left hreq.1, hs.exec.resolve_left,
        fun b hm => ⟨(hs.binaries b hm).1, (hs.binaries b hm).2, hb b hm⟩, hs.values, hs.count,
        hreq.1, hreq.2.1, hreq.2.2, fun hsys hex => hexec ⟨hsys, hex⟩⟩

/-- A manifest with a policy for a second binary. -/
def sampleManifest (binary : String) : Bytes :=
  ascii "id=a\nname=A\nversion=1\nexec=c\ncaps." ++ ascii binary ++ ascii "=NET\n"

theorem manifest_clean_sample :
    CleanManifest ⟨ascii "a", ascii "A", ascii "1", ascii "c", false, [], [], [], [⟨ascii "d", ascii "NET"⟩]⟩ ↔
      ∀ b ∈ namedBinaries (sampleManifest "d"), (b.take 63).any isControl = false :=
  manifest_clean_iff (by decide)

/-- The name of a binary with a tab is accepted and stored. -/
theorem manifest_control_stored : ∃ m, manifestParse (sampleManifest "d\te") = some m ∧ ¬ CleanManifest m := by
  refine ⟨⟨ascii "a", ascii "A", ascii "1", ascii "c", false, [], [], [], [⟨ascii "d\te", ascii "NET"⟩]⟩,
    by decide, fun h => ?_⟩
  have := (h.binaries _ mem_cons_self).2.2
  exact absurd this (by decide)

end Lorica.Proof.Herald
