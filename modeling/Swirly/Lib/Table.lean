import Mathlib.Logic.Function.Basic
import Mathlib.Data.List.Nodup

/-!
# Swirly.Lib.Table

**Tables of records that stay put.** A table holds one record for each of its
keys. A record never moves and never changes its key, so a reference to it is
named by the key, and reading through a reference is total.

What is read at a key outside the table is of no interest: every reference a
program holds was obtained by a lookup that found the record.
-/

namespace Lib

/-- A table of records, each stored under its own key. -/
structure Table {α κ : Type} (key : α → κ) where
  /-- The keys that have a record. -/
  keys : List κ
  /-- The record under each key. -/
  get : κ → α
  /-- No key is listed twice. -/
  nodup : keys.Nodup
  /-- A record carries the key it is stored under. -/
  key_get : ∀ k ∈ keys, key (get k) = k

namespace Table

variable {α κ : Type} {key : α → κ}

/-- The table of a list of records with distinct keys; `a` is read where there is none. -/
def ofList [DecidableEq κ] (l : List α) (a : α) (hl : (l.map key).Nodup) : Table key where
  keys := l.map key
  get k := (l.find? (fun b => key b = k)).getD a
  nodup := hl
  key_get := by
    intro k hk
    obtain ⟨b, hb, rfl⟩ := List.mem_map.mp hk
    cases hfind : l.find? (fun c => key c = key b) with
    | none => exact absurd (List.find?_eq_none.mp hfind b hb) (by simp)
    | some c => simpa using List.find?_some hfind

theorem ofList_get_mem [DecidableEq κ] {l : List α} {a : α} {hl : (l.map key).Nodup} {k : κ}
    (hk : k ∈ (ofList l a hl).keys) : (ofList l a hl).get k ∈ l := by
  obtain ⟨b, hb, rfl⟩ := List.mem_map.mp hk
  show (l.find? (fun c => key c = key b)).getD a ∈ l
  cases hfind : l.find? (fun c => key c = key b) with
  | none => exact absurd (List.find?_eq_none.mp hfind b hb) (by simp)
  | some c => exact List.mem_of_find?_eq_some hfind

@[ext] theorem ext {s t : Table key} (hkeys : s.keys = t.keys) (hget : s.get = t.get) : s = t := by
  cases s; cases t; cases hkeys; cases hget; rfl

variable [DecidableEq κ]

/-- Change the record under one key, without changing its key. -/
def modify (t : Table key) (k : κ) (f : α → α) (hf : ∀ a, key (f a) = key a) : Table key where
  keys := t.keys
  get := Function.update t.get k (f (t.get k))
  nodup := t.nodup
  key_get := by
    intro k' hk'
    by_cases h : k' = k
    · subst h; rw [Function.update_self, hf, t.key_get k' hk']
    · rw [Function.update_of_ne h, t.key_get k' hk']

section Modify

variable {t : Table key} {k : κ} {f : α → α} (hf : ∀ a, key (f a) = key a)

@[simp] theorem modify_keys : (t.modify k f hf).keys = t.keys := rfl

@[simp] theorem modify_get_self : (t.modify k f hf).get k = f (t.get k) := by
  simp [modify]

theorem modify_get_of_ne {k' : κ} (h : k' ≠ k) : (t.modify k f hf).get k' = t.get k' := by
  simp [modify, Function.update_of_ne h]

theorem modify_get (k' : κ) :
    (t.modify k f hf).get k' = if k' = k then f (t.get k) else t.get k' := by
  by_cases h : k' = k
  · subst h; simp
  · rw [modify_get_of_ne hf h, if_neg h]

/-- Only what a change makes of the record matters. -/
theorem modify_congr {g : α → α} (hg : ∀ a, key (g a) = key a) (hfg : f (t.get k) = g (t.get k)) :
    t.modify k f hf = t.modify k g hg := by
  refine ext rfl (funext fun k' => ?_)
  rw [modify_get, modify_get, hfg]

/-- A change that gives the record back as it was changes nothing. -/
theorem modify_eq_self (hid : f (t.get k) = t.get k) : t.modify k f hf = t := by
  refine ext rfl ?_
  simp [modify, hid]

/-- Two changes to one record are one change. -/
theorem modify_modify {g : α → α} (hg : ∀ a, key (g a) = key a) :
    (t.modify k f hf).modify k g hg = t.modify k (g ∘ f) (fun a => (hg (f a)).trans (hf a)) := by
  refine ext rfl ?_
  simp [modify]

end Modify

/-! ### New records -/

/-- Add a record, unless there is one under its key. -/
def add (t : Table key) (a : α) : Table key :=
  if h : key a ∈ t.keys then t
  else
    { keys := t.keys ++ [key a]
      get := Function.update t.get (key a) a
      nodup := by
        rw [List.nodup_append]
        refine ⟨t.nodup, List.nodup_singleton _, ?_⟩
        rintro k hk _ hk' rfl
        exact h (List.mem_singleton.mp hk' ▸ hk)
      key_get := by
        intro k hk
        by_cases hka : k = key a
        · rw [hka, Function.update_self]
        · rw [Function.update_of_ne hka]
          exact t.key_get k ((List.mem_append.mp hk).resolve_right
            (fun hmem => hka (List.mem_singleton.mp hmem))) }

section Add

variable {t : Table key} {a : α}

theorem add_of_not_mem (h : key a ∉ t.keys) :
    (t.add a).keys = t.keys ++ [key a] ∧ (t.add a).get = Function.update t.get (key a) a := by
  unfold add
  rw [dif_neg h]
  exact ⟨rfl, rfl⟩

theorem mem_add_keys {k : κ} : k ∈ (t.add a).keys ↔ k ∈ t.keys ∨ k = key a := by
  by_cases h : key a ∈ t.keys
  · unfold add
    rw [dif_pos h]
    refine ⟨Or.inl, ?_⟩
    rintro (hk | rfl)
    · exact hk
    · exact h
  · rw [(add_of_not_mem h).1, List.mem_append, List.mem_singleton]

/-- The records that are there stay as they are. -/
theorem add_get_of_mem {k : κ} (hk : k ∈ t.keys) : (t.add a).get k = t.get k := by
  by_cases h : key a ∈ t.keys
  · unfold add
    rw [dif_pos h]
  · rw [(add_of_not_mem h).2]
    refine Function.update_of_ne ?_ _ _
    rintro rfl
    exact h hk

theorem add_get_self (h : key a ∉ t.keys) : (t.add a).get (key a) = a := by
  rw [(add_of_not_mem h).2, Function.update_self]

/-- What holds of all records, and of one under a new key, holds of all records with it. -/
theorem forall_add {P : α → Prop} (hfree : key a ∉ t.keys) (h : ∀ k ∈ t.keys, P (t.get k))
    (ha : P a) : ∀ k ∈ (t.add a).keys, P ((t.add a).get k) := by
  intro k hk
  rcases mem_add_keys.mp hk with hold | rfl
  · rw [add_get_of_mem hold]
    exact h k hold
  · rw [add_get_self hfree]
    exact ha

end Add

omit [DecidableEq κ] in
/-- The records, in the order in which they were added. -/
def records (t : Table key) : List α := t.keys.map t.get

omit [DecidableEq κ] in
theorem records_keys (t : Table key) : t.records.map key = t.keys := by
  unfold records
  rw [List.map_map]
  exact (List.map_congr_left (fun k hk => t.key_get k hk)).trans (List.map_id _)

omit [DecidableEq κ] in
theorem mem_records {t : Table key} {b : α} : b ∈ t.records ↔ ∃ k ∈ t.keys, t.get k = b :=
  List.mem_map

theorem ofList_records {l : List α} {a : α} (hl : (l.map key).Nodup) :
    (ofList l a hl).records = l := by
  unfold records ofList
  rw [List.map_map]
  refine (List.map_congr_left (fun b hb => ?_)).trans (List.map_id l)
  show (l.find? (fun c => key c = key b)).getD a = b
  have hfind : l.find? (fun c => key c = key b) = some b := by
    cases hf : l.find? (fun c => key c = key b) with
    | none => exact absurd (List.find?_eq_none.mp hf b hb) (by simp)
    | some c =>
        have hkey : key c = key b := by simpa using List.find?_some hf
        rw [List.inj_on_of_nodup_map hl (List.mem_of_find?_eq_some hf) hb hkey]
  rw [hfind]
  rfl

theorem records_add {t : Table key} {a : α} (h : key a ∉ t.keys) :
    (t.add a).records = t.records ++ [a] := by
  unfold records
  rw [List.map_congr_left (l := (t.add a).keys) (g := (t.add a).get) (fun _ _ => rfl),
    (add_of_not_mem h).1, List.map_append, List.map_singleton, add_get_self h]
  exact congrArg (· ++ [a]) (List.map_congr_left (fun k hk => add_get_of_mem hk))

/-- A sequence of changes, each to the record under its own key, is for each record
the sequence of the changes to it. -/
theorem foldl_modify_get {β : Type} (dest : β → κ) (f : β → α → α)
    (hf : ∀ x a, key (f x a) = key a) (l : List β) (t : Table key) (k : κ) :
    (l.foldl (fun t x => t.modify (dest x) (f x) (hf x)) t).get k =
      (l.filter (fun x => dest x = k)).foldl (fun a x => f x a) (t.get k) := by
  induction l generalizing t with
  | nil => rfl
  | cons x l ih =>
      rw [List.foldl_cons, ih, modify_get]
      by_cases hk : dest x = k
      · rw [List.filter_cons_of_pos (by simpa using hk), List.foldl_cons, if_pos hk.symm, hk]
      · rw [List.filter_cons_of_neg (by simpa using hk), if_neg (fun h => hk h.symm)]

theorem foldl_modify_keys {β : Type} (dest : β → κ) (f : β → α → α)
    (hf : ∀ x a, key (f x a) = key a) (l : List β) (t : Table key) :
    (l.foldl (fun t x => t.modify (dest x) (f x) (hf x)) t).keys = t.keys := by
  induction l generalizing t with
  | nil => rfl
  | cons x l ih => rw [List.foldl_cons, ih]; rfl

end Table

end Lib
