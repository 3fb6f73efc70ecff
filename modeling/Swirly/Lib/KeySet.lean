import Mathlib.Order.Lattice
import Mathlib.Data.List.Basic
import Mathlib.Data.List.Induction
import Mathlib.Data.List.Pairwise
import Mathlib.Data.List.Nodup

/-!
# Swirly.Lib.KeySet

**Ordered sets of records keyed by a field.** The elements stand in strictly
increasing key order, which the type carries as a field, so no two elements
share a key and a lookup finds at most one.

Insertion keeps the element that is already there when the key is taken, the
convention of the standard ordered containers. `next k` is the first element
beyond `k`: one step of an iterator standing at `k`.

Everything that a proof about an operation needs is read off a split of the
element list at a key (`exists_split_of_mem`, `exists_split_of_not_mem`).
-/

namespace Lib

/-- A set of records in strictly increasing order of `key`. -/
structure KeySet {α κ : Type} [LinearOrder κ] (key : α → κ) where
  /-- The elements in key order. -/
  elems : List α
  /-- Keys are strictly increasing. -/
  sorted : elems.Pairwise (fun a b => key a < key b)

namespace KeySet

variable {α κ : Type} [LinearOrder κ] {key : α → κ}

@[ext] theorem ext {s t : KeySet key} (h : s.elems = t.elems) : s = t := by
  cases s; cases t; simpa using h

/-- The set with no elements. -/
def empty : KeySet key := ⟨[], List.Pairwise.nil⟩

@[simp] theorem empty_elems : (empty : KeySet key).elems = [] := rfl

/-- The element with key `k`, if there is one. -/
def find? (s : KeySet key) (k : κ) : Option α := s.elems.find? (fun a => key a = k)

/-- The first element whose key lies beyond `k`. -/
def next (s : KeySet key) (k : κ) : Option α := s.elems.find? (fun a => k < key a)

/-- Ordered insertion into a list; an element with the same key stays. -/
def insertList (key : α → κ) (a : α) : List α → List α
  | [] => [a]
  | b :: l =>
    if key a < key b then a :: b :: l
    else if key b < key a then b :: insertList key a l
    else b :: l

theorem mem_insertList {a x : α} {l : List α} (hx : x ∈ insertList key a l) : x = a ∨ x ∈ l := by
  induction l with
  | nil => simpa [insertList] using hx
  | cons b l ih =>
      unfold insertList at hx
      split at hx
      · simpa using hx
      · split at hx
        · rcases List.mem_cons.mp hx with rfl | hx
          · exact Or.inr List.mem_cons_self
          · exact (ih hx).imp_right (List.mem_cons_of_mem b)
        · exact Or.inr hx

theorem insertList_sorted (a : α) {l : List α} (hl : l.Pairwise (fun a b => key a < key b)) :
    (insertList key a l).Pairwise (fun a b => key a < key b) := by
  induction l with
  | nil => simp [insertList]
  | cons b l ih =>
      obtain ⟨hb, hl'⟩ := List.pairwise_cons.mp hl
      unfold insertList
      split
      · next hab =>
          refine List.pairwise_cons.mpr ⟨fun x hx => ?_, hl⟩
          rcases List.mem_cons.mp hx with rfl | hx
          · exact hab
          · exact lt_trans hab (hb x hx)
      · split
        · next hba =>
            refine List.pairwise_cons.mpr ⟨fun x hx => ?_, ih hl'⟩
            rcases mem_insertList hx with rfl | hx
            · exact hba
            · exact hb x hx
        · exact hl

/-- Insert an element unless its key is taken. -/
def insert (s : KeySet key) (a : α) : KeySet key :=
  ⟨insertList key a s.elems, insertList_sorted a s.sorted⟩

/-- Change the element with key `k`, if there is one, without changing its key. -/
def modify (s : KeySet key) (k : κ) (f : α → α) (hf : ∀ a, key (f a) = key a) : KeySet key where
  elems := s.elems.map (fun a => if key a = k then f a else a)
  sorted := by
    refine List.pairwise_map.mpr (s.sorted.imp ?_)
    intro a b hab
    split <;> split <;> simpa [hf] using hab

/-- Put an element in the place of the one that has its key, if there is one. -/
def replace (s : KeySet key) (a : α) : KeySet key :=
  s.modify (key a) (fun b => if key b = key a then a else b) (by
    intro b
    split
    · next hb => exact hb.symm
    · rfl)

/-- Remove the element with key `k`, if there is one. -/
def erase (s : KeySet key) (k : κ) : KeySet key :=
  ⟨s.elems.filter (fun a => key a ≠ k), s.sorted.filter _⟩

/-! ### Membership and lookup -/

theorem nodup (s : KeySet key) : s.elems.Nodup :=
  s.sorted.imp (fun hab => by rintro rfl; exact lt_irrefl _ hab)

/-- The elements around a member: smaller keys before it, larger keys after. -/
theorem exists_split_of_mem {s : KeySet key} {a : α} (ha : a ∈ s.elems) :
    ∃ l r, s.elems = l ++ a :: r ∧ (∀ x ∈ l, key x < key a) ∧ (∀ x ∈ r, key a < key x) := by
  obtain ⟨l, r, hs⟩ := List.append_of_mem ha
  have hsorted := s.sorted
  rw [hs, List.pairwise_append] at hsorted
  obtain ⟨-, hr, hlr⟩ := hsorted
  exact ⟨l, r, hs, fun x hx => hlr x hx a List.mem_cons_self, (List.pairwise_cons.mp hr).1⟩

theorem eq_of_key_eq {s : KeySet key} {a b : α} (ha : a ∈ s.elems) (hb : b ∈ s.elems)
    (hab : key a = key b) : a = b := by
  by_contra hne
  obtain ⟨l, r, hs, hl, hr⟩ := exists_split_of_mem ha
  rw [hs, List.mem_append, List.mem_cons] at hb
  rcases hb with hb | rfl | hb
  · exact absurd hab (ne_of_gt (hl b hb))
  · exact hne rfl
  · exact absurd hab (ne_of_lt (hr b hb))

theorem mem_of_find? {s : KeySet key} {k : κ} {a : α} (h : s.find? k = some a) :
    a ∈ s.elems ∧ key a = k :=
  ⟨List.mem_of_find?_eq_some h, by simpa using List.find?_some h⟩

theorem find?_of_mem {s : KeySet key} {a : α} (ha : a ∈ s.elems) : s.find? (key a) = some a := by
  cases hf : s.find? (key a) with
  | none => exact absurd (List.find?_eq_none.mp hf a ha) (by simp)
  | some b =>
      obtain ⟨hb, hk⟩ := mem_of_find? hf
      rw [eq_of_key_eq hb ha hk]

theorem find?_eq_some_iff {s : KeySet key} {k : κ} {a : α} :
    s.find? k = some a ↔ a ∈ s.elems ∧ key a = k :=
  ⟨mem_of_find?, fun ⟨ha, hk⟩ => hk ▸ find?_of_mem ha⟩

theorem find?_eq_none_iff {s : KeySet key} {k : κ} :
    s.find? k = none ↔ ∀ a ∈ s.elems, key a ≠ k := by
  simp [find?, List.find?_eq_none]

/-- A change to the elements with a key that none has. -/
theorem map_of_forall_ne {l : List α} {k : κ} {f : α → α} (hl : ∀ x ∈ l, key x ≠ k) :
    l.map (fun x => if key x = k then f x else x) = l := by
  conv_rhs => rw [← List.map_id l]
  exact List.map_congr_left (fun x hx => if_neg (hl x hx))

/-! ### Splits at a key -/

theorem insertList_split {a : α} {l : List α} (hl : l.Pairwise (fun a b => key a < key b))
    (ha : ∀ b ∈ l, key b ≠ key a) :
    ∃ l₁ l₂, l = l₁ ++ l₂ ∧ insertList key a l = l₁ ++ a :: l₂ ∧
      (∀ x ∈ l₁, key x < key a) ∧ (∀ x ∈ l₂, key a < key x) := by
  induction l with
  | nil => exact ⟨[], [], rfl, rfl, by simp, by simp⟩
  | cons b l ih =>
      obtain ⟨hb, hl'⟩ := List.pairwise_cons.mp hl
      rcases lt_or_gt_of_ne (ha b List.mem_cons_self) with hba | hab
      · obtain ⟨l₁, l₂, rfl, hins, h₁, h₂⟩ := ih hl' (fun x hx => ha x (List.mem_cons_of_mem b hx))
        refine ⟨b :: l₁, l₂, rfl, ?_, ?_, h₂⟩
        · rw [insertList, if_neg (not_lt.mpr hba.le), if_pos hba, hins, List.cons_append]
        · intro x hx
          rcases List.mem_cons.mp hx with rfl | hx
          · exact hba
          · exact h₁ x hx
      · refine ⟨[], b :: l, rfl, ?_, by simp, ?_⟩
        · rw [insertList, if_pos hab, List.nil_append]
        · intro x hx
          rcases List.mem_cons.mp hx with rfl | hx
          · exact hab
          · exact lt_trans hab (hb x hx)

/-- Where an absent key is inserted: smaller keys before it, larger keys after. -/
theorem exists_split_of_not_mem {s : KeySet key} {a : α} (ha : s.find? (key a) = none) :
    ∃ l r, s.elems = l ++ r ∧ (s.insert a).elems = l ++ a :: r ∧
      (∀ x ∈ l, key x < key a) ∧ (∀ x ∈ r, key a < key x) :=
  insertList_split s.sorted (find?_eq_none_iff.mp ha)

section Split

variable {s : KeySet key} {a : α} {l r : List α}

/-- At a split, `modify` changes the element and nothing around it. -/
theorem modify_elems_of_split (hs : s.elems = l ++ a :: r) (hl : ∀ x ∈ l, key x < key a)
    (hr : ∀ x ∈ r, key a < key x) (f : α → α) (hf : ∀ a, key (f a) = key a) :
    (s.modify (key a) f hf).elems = l ++ f a :: r := by
  simp only [modify, hs, List.map_append, List.map_cons, if_true]
  rw [map_of_forall_ne (fun x hx => (hl x hx).ne), map_of_forall_ne (fun x hx => (hr x hx).ne')]

/-- At a split, `erase` drops the element and nothing around it. -/
theorem erase_elems_of_split (hs : s.elems = l ++ a :: r) (hl : ∀ x ∈ l, key x < key a)
    (hr : ∀ x ∈ r, key a < key x) : (s.erase (key a)).elems = l ++ r := by
  simp only [erase, hs, List.filter_append, List.filter_cons]
  rw [List.filter_eq_self.mpr (fun x hx => by simpa using (hl x hx).ne),
    List.filter_eq_self.mpr (fun x hx => by simpa using (hr x hx).ne')]
  simp

/-- At a split, the next element is the head of what follows. -/
theorem next_of_split (hs : s.elems = l ++ a :: r) (hl : ∀ x ∈ l, key x < key a)
    (hr : ∀ x ∈ r, key a < key x) : s.next (key a) = r.head? := by
  unfold next
  rw [hs, List.find?_append, List.find?_eq_none.mpr (fun x hx => by simpa using (hl x hx).le),
    List.find?_cons_of_neg (by simp)]
  cases r with
  | nil => rfl
  | cons b r => simp [hr b List.mem_cons_self]

theorem mem_of_split (hs : s.elems = l ++ a :: r) : a ∈ s.elems := by
  rw [hs]; simp

end Split

/-! ### Insertion -/

/-- Inserting an absent key adds the element, up to its place in the order. -/
theorem insert_perm {s : KeySet key} {a : α} (ha : s.find? (key a) = none) :
    (s.insert a).elems.Perm (a :: s.elems) := by
  obtain ⟨l, r, hs, hi, -, -⟩ := exists_split_of_not_mem ha
  rw [hi, hs]
  exact List.perm_middle

/-- Inserting a key that is taken changes nothing. -/
theorem insert_of_mem {s : KeySet key} {a b : α} (hb : s.find? (key a) = some b) :
    s.insert a = s := by
  obtain ⟨hmem, hk⟩ := mem_of_find? hb
  have hgo : ∀ {l : List α}, l.Pairwise (fun a b => key a < key b) → b ∈ l →
      insertList key a l = l := by
    intro l hl hb
    induction l with
    | nil => simp at hb
    | cons c l ih =>
        obtain ⟨hc, hl'⟩ := List.pairwise_cons.mp hl
        rcases List.mem_cons.mp hb with rfl | hb
        · rw [insertList, if_neg hk.not_gt, if_neg hk.not_lt]
        · have hca : key c < key a := hk ▸ hc b hb
          rw [insertList, if_neg hca.not_gt, if_pos hca, ih hl' hb]
  exact KeySet.ext (hgo s.sorted hmem)

theorem mem_insert {s : KeySet key} {a x : α} (ha : s.find? (key a) = none) :
    x ∈ (s.insert a).elems ↔ x = a ∨ x ∈ s.elems := by
  rw [(insert_perm ha).mem_iff, List.mem_cons]

/-- Insertion adds the element at most. -/
theorem mem_of_mem_insert {s : KeySet key} {a x : α} (hx : x ∈ (s.insert a).elems) :
    x = a ∨ x ∈ s.elems := mem_insertList hx

theorem mem_erase {s : KeySet key} {k : κ} {x : α} :
    x ∈ (s.erase k).elems ↔ x ∈ s.elems ∧ key x ≠ k := by
  simp [erase]

theorem find?_insert_self {s : KeySet key} {a : α} (ha : s.find? (key a) = none) :
    (s.insert a).find? (key a) = some a :=
  find?_of_mem ((mem_insert ha).mpr (Or.inl rfl))

theorem find?_insert_of_ne (s : KeySet key) {a : α} {k : κ} (hk : k ≠ key a) :
    (s.insert a).find? k = s.find? k := by
  cases ha : s.find? (key a) with
  | some b => rw [insert_of_mem ha]
  | none =>
      cases hf : s.find? k with
      | some b =>
          obtain ⟨hb, rfl⟩ := mem_of_find? hf
          exact find?_of_mem ((mem_insert ha).mpr (Or.inr hb))
      | none =>
          rw [find?_eq_none_iff] at hf ⊢
          intro x hx
          rcases (mem_insert ha).mp hx with rfl | hx
          · exact hk.symm
          · exact hf x hx

/-! ### Modification -/

section Modify

variable {s : KeySet key} {k : κ} {f : α → α} {hf : ∀ a, key (f a) = key a}

theorem mem_modify {x : α} : x ∈ (s.modify k f hf).elems ↔
    (x ∈ s.elems ∧ key x ≠ k) ∨ ∃ a, s.find? k = some a ∧ x = f a := by
  simp only [modify, List.mem_map, find?_eq_some_iff]
  constructor
  · rintro ⟨a, ha, rfl⟩
    split
    · next hk => exact Or.inr ⟨a, ⟨ha, hk⟩, rfl⟩
    · next hk => exact Or.inl ⟨ha, hk⟩
  · rintro (⟨hx, hk⟩ | ⟨a, ⟨ha, hk⟩, rfl⟩)
    · exact ⟨x, hx, by simp [hk]⟩
    · exact ⟨a, ha, by simp [hk]⟩

/-- The element that is replaced goes, and the one in its place comes. -/
theorem mem_replace {a b x : α} (hb : s.find? (key a) = some b) :
    x ∈ (s.replace a).elems ↔ x = a ∨ x ∈ s.elems ∧ x ≠ b := by
  have hkey := (mem_of_find? hb).2
  have hne : ∀ {x}, x ∈ s.elems → (key x ≠ key a ↔ x ≠ b) := by
    intro x hx
    refine not_congr ⟨fun hxa => ?_, fun hxb => hxb ▸ hkey⟩
    exact eq_of_key_eq hx (mem_of_find? hb).1 (hxa.trans hkey.symm)
  rw [replace, mem_modify, or_comm, and_congr_right hne]
  refine or_congr_left ⟨?_, fun hx => ⟨b, hb, by rw [if_pos hkey]; exact hx⟩⟩
  rintro ⟨c, hc, rfl⟩
  exact if_pos (mem_of_find? hc).2

/-- There is nothing to change under a key that is not taken. -/
theorem modify_of_find?_none (hk : s.find? k = none) : s.modify k f hf = s :=
  ext (map_of_forall_ne (find?_eq_none_iff.mp hk))

/-- Only what a change makes of the element matters. -/
theorem modify_congr {g : α → α} {hg : ∀ a, key (g a) = key a}
    (hfg : ∀ a, s.find? k = some a → f a = g a) : s.modify k f hf = s.modify k g hg := by
  refine ext (List.map_congr_left (fun a ha => ?_))
  split
  · next hk => exact hfg a (find?_eq_some_iff.mpr ⟨ha, hk⟩)
  · rfl

theorem find?_modify (k' : κ) : (s.modify k f hf).find? k' =
    if k' = k then (s.find? k).map f else s.find? k' := by
  by_cases hk : k' = k
  · subst hk
    rw [if_pos rfl]
    cases hfind : s.find? k' with
    | none =>
        refine find?_eq_none_iff.mpr (fun x hx => ?_)
        rcases mem_modify.mp hx with ⟨-, hne⟩ | ⟨a, ha, -⟩
        · exact hne
        · rw [hfind] at ha; cases ha
    | some a =>
        refine find?_eq_some_iff.mpr ⟨mem_modify.mpr (Or.inr ⟨a, hfind, rfl⟩), ?_⟩
        rw [hf, (mem_of_find? hfind).2]
  · rw [if_neg hk]
    cases hfind : s.find? k' with
    | none =>
        refine find?_eq_none_iff.mpr (fun x hx => ?_)
        rcases mem_modify.mp hx with ⟨hx, -⟩ | ⟨a, ha, rfl⟩
        · exact find?_eq_none_iff.mp hfind x hx
        · rw [hf, (mem_of_find? ha).2]; exact Ne.symm hk
    | some a =>
        obtain ⟨ha, rfl⟩ := mem_of_find? hfind
        exact find?_of_mem (mem_modify.mpr (Or.inl ⟨ha, hk⟩))

end Modify

/-! ### Other elements with the same keys -/

section Map

variable {β : Type} {key' : β → κ} {f : α → β} {hf : ∀ a, key' (f a) = key a}

/-- The elements stand for others that have their keys. -/
def map (s : KeySet key) (f : α → β) (hf : ∀ a, key' (f a) = key a) : KeySet key' where
  elems := s.elems.map f
  sorted := by
    refine List.pairwise_map.mpr (s.sorted.imp ?_)
    intro a b hab
    rwa [hf, hf]

theorem insert_map (s : KeySet key) (a : α) :
    (s.map f hf).insert (f a) = (s.insert a).map f hf := by
  have hlist : ∀ l : List α,
      insertList key' (f a) (l.map f) = (insertList key a l).map f := by
    intro l
    induction l with
    | nil => rfl
    | cons b l ih =>
        simp only [List.map_cons, insertList, hf, ih]
        split
        · rfl
        · split <;> rfl
  exact ext (hlist s.elems)

theorem erase_map (s : KeySet key) (k : κ) : (s.map f hf).erase k = (s.erase k).map f hf := by
  refine ext ?_
  simp only [erase, map, List.filter_map, Function.comp_def, hf]

end Map

/-! ### Sets of lists -/

section OfList

/-- The elements of a list, one inserted after the other. -/
def ofList (l : List α) : KeySet key := l.foldl insert empty

theorem ofList_append_singleton (l : List α) (a : α) :
    (ofList (l ++ [a]) : KeySet key) = (ofList l).insert a := by
  unfold ofList
  rw [List.foldl_append]
  rfl

/-- A list without two elements of one key loses none. -/
theorem mem_ofList {l : List α} (hl : (l.map key).Nodup) {a : α} :
    a ∈ (ofList l : KeySet key).elems ↔ a ∈ l := by
  induction l using List.reverseRecOn generalizing a with
  | nil => simp [ofList]
  | append_singleton l b ih =>
      rw [List.map_append, List.nodup_append] at hl
      obtain ⟨hl, -, hdisjoint⟩ := hl
      have hnone : (ofList l : KeySet key).find? (key b) = none :=
        find?_eq_none_iff.mpr (fun x hx => hdisjoint _ (List.mem_map_of_mem ((ih hl).mp hx)) _
          (List.mem_singleton_self _))
      rw [ofList_append_singleton, mem_insert hnone, ih hl, List.mem_append, List.mem_singleton,
        or_comm]

end OfList

end KeySet

end Lib
