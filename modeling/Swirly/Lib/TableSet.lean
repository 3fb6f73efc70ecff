import Swirly.Lib.KeySet
import Swirly.Lib.Table

/-!
# Swirly.Lib.TableSet

**A table in another order.** The records of a table make a set that is ordered by a name of
their keys, as long as no two keys have one name. What is added to the table is added to the
set.
-/

namespace Lib

namespace Table

variable {α κ ν : Type} {key : α → κ} [LinearOrder ν]

/-- The records of a table, by their names. -/
def toSet (t : Table key) (name : κ → ν) : KeySet (fun a => name (key a)) := .ofList t.records

section Injective

variable {t : Table key} {name : κ → ν} (hname : Function.Injective name)

include hname

omit [LinearOrder ν] in
theorem records_names_nodup : (t.records.map (fun a => name (key a))).Nodup := by
  have hmap : t.records.map (fun a => name (key a)) = t.keys.map name := by
    rw [← t.records_keys, List.map_map]
    rfl
  rw [hmap]
  exact t.nodup.map hname

theorem mem_toSet {a : α} : a ∈ (t.toSet name).elems ↔ a ∈ t.records :=
  KeySet.mem_ofList (records_names_nodup hname)

/-- A lookup by name finds the record under the key with that name. -/
theorem find?_toSet (n : ν) [DecidablePred (fun k => name k = n)] :
    (t.toSet name).find? n = (t.keys.find? (fun k => name k = n)).map t.get := by
  cases hfind : t.keys.find? (fun k => name k = n) with
  | none =>
      refine KeySet.find?_eq_none_iff.mpr (fun a ha hn => ?_)
      obtain ⟨k, hk, rfl⟩ := mem_records.mp ((mem_toSet hname).mp ha)
      rw [t.key_get k hk] at hn
      exact absurd hn (by simpa using List.find?_eq_none.mp hfind k hk)
  | some k =>
      have hk := List.mem_of_find?_eq_some hfind
      refine KeySet.find?_eq_some_iff.mpr
        ⟨(mem_toSet hname).mpr (mem_records.mpr ⟨k, hk, rfl⟩), ?_⟩
      rw [t.key_get k hk]
      simpa using List.find?_some hfind

end Injective

variable [DecidableEq κ] {t : Table key} {name : κ → ν}

theorem toSet_add {a : α} (h : key a ∉ t.keys) :
    (t.add a).toSet name = (t.toSet name).insert a := by
  unfold toSet
  rw [records_add h, KeySet.ofList_append_singleton]

end Table

end Lib
