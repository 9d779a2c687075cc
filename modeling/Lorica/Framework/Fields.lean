import Mathlib

/-!
# Fields of a list, split and joined

A list is split into its fields, the runs of elements that are not blank (`fields`). Joining the
first `n` fields with one separator between each two gives the list back just if it was written
that way: `join_take_fields_iff`.
-/

namespace Lorica.Fields

open List

variable {α : Type} (blank : α → Bool)

/-- A field, or nothing if it has no elements. -/
def close (cur : List α) : List (List α) := if cur.isEmpty then [] else [cur]

/-- The fields of a list whose first elements have been read. -/
def fieldsFrom (cur : List α) : List α → List (List α)
  | [] => close cur
  | c :: v => if blank c then close cur ++ fieldsFrom [] v else fieldsFrom (cur ++ [c]) v

def fields (v : List α) : List (List α) := fieldsFrom blank [] v

/-- What a field is: some elements, and no blank among them. -/
def IsField (f : List α) : Prop := f ≠ [] ∧ ∀ c ∈ f, blank c = false

variable {blank} {sep : α} {f v cur : List α} {fs : List (List α)} {n : Nat}

theorem mem_close (h : f ∈ close cur) : f = cur := by
  cases cur with
  | nil => exact absurd h not_mem_nil
  | cons c cur => exact mem_singleton.mp h

theorem isField_close (hcur : ∀ c ∈ cur, blank c = false) : ∀ f ∈ close cur, IsField blank f := by
  intro f hf
  obtain rfl := mem_close hf
  refine ⟨?_, hcur⟩
  rintro rfl
  exact absurd hf not_mem_nil

theorem isField_fieldsFrom (hcur : ∀ c ∈ cur, blank c = false) : ∀ f ∈ fieldsFrom blank cur v, IsField blank f := by
  induction v generalizing cur with
  | nil => exact isField_close hcur
  | cons c v ih =>
    cases hc : blank c with
    | true =>
      rw [fieldsFrom, if_pos hc]
      intro f hf
      rcases mem_append.mp hf with hf | hf
      · exact isField_close hcur f hf
      · exact ih (forall_mem_nil _) f hf
    | false =>
      rw [fieldsFrom, if_neg (by simp [hc])]
      exact ih (forall_mem_append.mpr ⟨hcur, forall_mem_singleton.mpr hc⟩)

/-- A list that is `n` fields or fewer with one separator between each two. -/
structure Neat (blank : α → Bool) (sep : α) [DecidableEq α] (n : Nat) (v : List α) : Prop where
  blanks : ∀ c ∈ v, blank c = true → c = sep
  first : v.head? ≠ some sep
  last : v.getLast? ≠ some sep
  single : v.IsChain fun a b => ¬ (a = sep ∧ b = sep)
  few : v.count sep < n

theorem join_cons (hfs : fs ≠ []) : [sep].intercalate (f :: fs) = f ++ sep :: [sep].intercalate fs := by
  obtain ⟨g, fs, rfl⟩ := exists_cons_of_ne_nil hfs
  simp [intercalate]

theorem join_singleton : [sep].intercalate [f] = f := by
  simp [intercalate]

theorem join_ne_nil (hfs : fs ≠ []) (h : ∀ f ∈ fs, IsField blank f) : [sep].intercalate fs ≠ [] := by
  obtain ⟨g, fs, rfl⟩ := exists_cons_of_ne_nil hfs
  have hg : g ≠ [] := (h g mem_cons_self).1
  rcases eq_or_ne fs [] with rfl | hne
  · rwa [join_singleton]
  · rw [join_cons hne]
    exact append_ne_nil_of_left_ne_nil hg _

/-- Joined fields are no longer than the list. -/
theorem length_join_fieldsFrom_le : ([sep].intercalate (fieldsFrom blank cur v)).length ≤ cur.length + v.length := by
  induction v generalizing cur with
  | nil =>
    cases cur with
    | nil => exact Nat.le_refl 0
    | cons c cur =>
      show ([sep].intercalate [c :: cur]).length ≤ _
      rw [join_singleton]
      exact Nat.le_add_right _ _
  | cons c v ih =>
    have hrest : ([sep].intercalate (fieldsFrom blank [] v)).length ≤ [].length + v.length := ih
    cases hb : blank c with
    | true =>
      rw [fieldsFrom, if_pos hb]
      cases cur with
      | nil => exact hrest.trans (by simp)
      | cons d cur =>
        show ([sep].intercalate ((d :: cur) :: fieldsFrom blank [] v)).length ≤ _
        rcases eq_or_ne (fieldsFrom blank [] v) [] with hnil | hne
        · rw [hnil, join_singleton]
          omega
        · rw [join_cons hne]
          simp only [length_append, length_cons, length_nil] at hrest ⊢
          omega
    | false =>
      rw [fieldsFrom, if_neg (by simp [hb])]
      have hlen : ([sep].intercalate (fieldsFrom blank (cur ++ [c]) v)).length ≤ (cur ++ [c]).length + v.length := ih
      simp only [length_append, length_cons, length_nil] at hlen ⊢
      omega

theorem length_join_take_le (n : Nat) (fs : List (List α)) :
    ([sep].intercalate (fs.take n)).length ≤ ([sep].intercalate fs).length := by
  induction fs generalizing n with
  | nil => rw [take_nil]
  | cons f fs ih =>
    cases n with
    | zero => exact Nat.zero_le _
    | succ n =>
      rw [take_succ_cons]
      rcases eq_or_ne fs [] with rfl | hne
      · rw [take_nil]
      · rw [join_cons hne]
        rcases eq_or_ne (fs.take n) [] with hnil | hne'
        · rw [hnil, join_singleton, length_append]
          exact Nat.le_add_right _ _
        · rw [join_cons hne', length_append, length_append]
          exact Nat.add_le_add_left (Nat.succ_le_succ (ih n)) _

theorem mem_join {a : α} (h : a ∈ [sep].intercalate fs) : a = sep ∨ ∃ f ∈ fs, a ∈ f := by
  induction fs with
  | nil => exact absurd h not_mem_nil
  | cons f fs ih =>
    rcases eq_or_ne fs [] with rfl | hne
    · rw [join_singleton] at h
      exact .inr ⟨f, mem_cons_self, h⟩
    · rw [join_cons hne, mem_append, mem_cons] at h
      rcases h with h | h | h
      · exact .inr ⟨f, mem_cons_self, h⟩
      · exact .inl h
      · exact (ih h).imp_right fun ⟨g, hg, ha⟩ => ⟨g, mem_cons_of_mem f hg, ha⟩

theorem mem_fieldsFrom {a : α} (hf : f ∈ fieldsFrom blank cur v) (ha : a ∈ f) : a ∈ cur ++ v := by
  induction v generalizing cur with
  | nil => exact mem_append_left _ (mem_close hf ▸ ha)
  | cons c v ih =>
    cases hb : blank c with
    | true =>
      rw [fieldsFrom, if_pos hb, mem_append] at hf
      rcases hf with hf | hf
      · exact mem_append_left _ (mem_close hf ▸ ha)
      · exact mem_append_right _ (mem_cons_of_mem c (ih hf))
    | false =>
      rw [fieldsFrom, if_neg (by simp [hb])] at hf
      have hmem : a ∈ cur ++ [c] ++ v := ih hf
      rwa [append_assoc] at hmem

variable [DecidableEq α]

theorem neat_field (hsep : blank sep = true) (hf : IsField blank f) : Neat blank sep 1 f := by
  have hne : ∀ c ∈ f, c ≠ sep := by
    intro c hc h
    have := hf.2 c hc
    rw [h, hsep] at this
    exact Bool.noConfusion this
  refine ⟨fun c hc hb => ?_, fun h => ?_, fun h => ?_, ?_, ?_⟩
  · rw [hf.2 c hc] at hb
    exact Bool.noConfusion hb
  · exact hne sep (mem_of_mem_head? h) rfl
  · exact hne sep (mem_of_mem_getLast? h) rfl
  · exact List.Pairwise.isChain (pairwise_of_forall_mem_list fun a ha b _ h => hne a ha h.1)
  · rw [count_eq_zero.mpr fun h => hne sep h rfl]
    exact Nat.one_pos

/-- One more field in front. -/
theorem Neat.cons (hsep : blank sep = true) (hf : IsField blank f) (hv : v ≠ []) (h : Neat blank sep n v) :
    Neat blank sep (n + 1) (f ++ sep :: v) := by
  have hfirst := neat_field hsep hf
  refine ⟨?_, ?_, ?_, ?_, ?_⟩
  · intro c hc hb
    rcases mem_append.mp hc with hc | hc
    · exact hfirst.blanks c hc hb
    · rcases mem_cons.mp hc with rfl | hc
      · rfl
      · exact h.blanks c hc hb
  · rw [head?_append_of_ne_nil _ hf.1]
    exact hfirst.first
  · rw [getLast?_append_of_ne_nil _ (cons_ne_nil _ _), getLast?_cons_of_ne_nil hv]
    exact h.last
  · rw [isChain_append, isChain_cons]
    refine ⟨hfirst.single, ⟨fun y hy hs => h.first (hs.2 ▸ hy), h.single⟩, fun x hx y _ hs => ?_⟩
    exact hfirst.last (hs.1 ▸ hx)
  · have hcount : f.count sep < 1 := hfirst.few
    have hrest : v.count sep < n := h.few
    rw [count_append, count_cons_self]
    omega

theorem neat_join (hsep : blank sep = true) (h : ∀ f ∈ fs, IsField blank f) (hn : 0 < n) (hlen : fs.length ≤ n) :
    Neat blank sep n ([sep].intercalate fs) := by
  induction fs generalizing n with
  | nil => exact ⟨forall_mem_nil _, by simp, by simp, isChain_nil, hn⟩
  | cons f fs ih =>
    obtain ⟨hf, hfs⟩ := forall_mem_cons.mp h
    rcases eq_or_ne fs [] with rfl | hne
    · rw [join_singleton]
      have hone := neat_field hsep hf
      exact ⟨hone.blanks, hone.first, hone.last, hone.single, Nat.lt_of_lt_of_le hone.few hn⟩
    · rw [join_cons hne]
      rw [length_cons] at hlen
      have hpos := length_pos_of_ne_nil hne
      obtain ⟨n, rfl⟩ := Nat.exists_eq_succ_of_ne_zero (Nat.ne_of_gt hn)
      exact (ih hfs (by omega) (by omega)).cons hsep hf (join_ne_nil hne hfs)

/-- A neat list is joined again from its fields, of which there is one more than separators. -/
theorem join_fieldsFrom (hblanks : ∀ c ∈ v, blank c = true → c = sep) (hlast : v.getLast? ≠ some sep)
    (hsingle : v.IsChain fun a b => ¬ (a = sep ∧ b = sep)) (hfirst : cur = [] → v.head? ≠ some sep)
    (hsep : blank sep = true) :
    [sep].intercalate (fieldsFrom blank cur v) = cur ++ v ∧ (fieldsFrom blank cur v).length ≤ v.count sep + 1 := by
  induction v generalizing cur with
  | nil =>
    cases cur with
    | nil => exact ⟨rfl, Nat.zero_le _⟩
    | cons c cur => exact ⟨by rw [append_nil]; exact join_singleton, Nat.le_refl _⟩
  | cons c v ih =>
    obtain ⟨hc, hv⟩ := forall_mem_cons.mp hblanks
    have hlast' : v.getLast? ≠ some sep := by
      rcases eq_or_ne v [] with rfl | hne
      · simp
      · rwa [getLast?_cons_of_ne_nil hne] at hlast
    obtain ⟨hnext, hsingle'⟩ := isChain_cons.mp hsingle
    cases hb : blank c with
    | true =>
      obtain rfl := hc hb
      -- a separator: the field before it has elements, and so has the list behind it
      have hcur : cur ≠ [] := fun h => hfirst h rfl
      have hne : v ≠ [] := fun h => hlast (by rw [h]; rfl)
      have hhead : ([] : List α) = [] → v.head? ≠ some c := fun _ h => hnext c h ⟨rfl, rfl⟩
      obtain ⟨hjoin, hlen⟩ := ih hv hlast' hsingle' hhead
      have hfields : fieldsFrom blank [] v ≠ [] := by
        intro h
        rw [h] at hjoin
        exact hne (nil_append v ▸ hjoin).symm
      have hclose : close cur = [cur] := if_neg (by simpa using hcur)
      rw [fieldsFrom, if_pos hb, hclose]
      refine ⟨?_, ?_⟩
      · rw [singleton_append, join_cons hfields, hjoin, nil_append]
      · rw [singleton_append, length_cons, count_cons_self]
        omega
    | false =>
      have hne : c ≠ sep := by
        rintro rfl
        rw [hsep] at hb
        exact Bool.noConfusion hb
      have hhead : cur ++ [c] = [] → v.head? ≠ some sep := fun h => by simp at h
      obtain ⟨hjoin, hlen⟩ := ih hv hlast' hsingle' hhead
      rw [fieldsFrom, if_neg (by simp [hb])]
      refine ⟨by rw [hjoin]; simp, ?_⟩
      rwa [count_cons_of_ne hne]

/-- The first fields of a list, joined, are the list just if it is neat. -/
theorem join_take_fields_iff (hsep : blank sep = true) (hn : 0 < n) :
    [sep].intercalate ((fields blank v).take n) = v ↔ Neat blank sep n v := by
  refine ⟨fun h => ?_, fun h => ?_⟩
  · rw [← h]
    refine neat_join hsep (fun f hf => ?_) hn (length_take_le _ _)
    exact isField_fieldsFrom (forall_mem_nil _) f (mem_of_mem_take hf)
  · have hhead : ([] : List α) = [] → v.head? ≠ some sep := fun _ => h.first
    obtain ⟨hjoin, hlen⟩ := join_fieldsFrom h.blanks h.last h.single hhead hsep
    have hfew := h.few
    rw [take_of_length_le (by unfold fields; omega)]
    exact hjoin

end Lorica.Fields
