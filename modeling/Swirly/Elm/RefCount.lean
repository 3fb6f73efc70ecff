import Mathlib.Algebra.Order.Group.Int
import Mathlib.Tactic.Ring
import Swirly.Lib.KeySet
import Swirly.Lib.Trace
import Swirly.Elm.Order

/-!
# Swirly.Elm.RefCount

**Objects that count the references to them.** `RequestIdSet` and `OrderRefSet` hold their
elements in an intrusive set, where an element is no reference by itself: each operation
counts the set's reference by hand. `RefSet` is the code that the two have in common, and a
key makes it the one or the other.

Insertion, replacement and the destructor keep the balance of one reference for each handle
and one for being a member (`Balanced`). `remove` takes the element out and keeps its
reference, so a run is balanced throughout exactly as long as nothing is removed
(`balanced_iff`), and each removal leaves one reference behind for good (`surplus_run`).

Counts do not overflow here. An object is deleted when its count falls to zero.
-/

namespace Swirly.RefCount

open Lib (KeySet Ptr Traced)

/-- Objects with a count each, the handles to them that are outside of a set, and the set. -/
structure RefSet {κ : Type} [LinearOrder κ] (key : Ptr → κ) where
  members : KeySet key
  /-- `refs_`. -/
  refs : Ptr → Int
  handles : Ptr → Nat

namespace RefSet

variable {κ : Type} [LinearOrder κ] {key : Ptr → κ}

/-- An empty set, and as many references to each object as there are handles. -/
def fresh (handles : Ptr → Nat) : RefSet key :=
  { members := .empty, refs := fun p => handles p, handles }

/-- `addRef`: one reference more. The count is an unbounded integer here; the source's is an
`int`, and this many handles do not occur. -/
def addRef (σ : RefSet key) (p : Ptr) : RefSet key :=
  { σ with refs := Function.update σ.refs p (σ.refs p + 1) }

/-- `release`: one reference less. What is deleted when none is left is said by `Deleted`; the
object stays in the model, so that a dangling member can be seen. -/
def release (σ : RefSet key) (p : Ptr) : RefSet key :=
  { σ with refs := Function.update σ.refs p (σ.refs p - 1) }

/-- What `release` deletes: an object whose references have all been given back. -/
def Deleted (σ : RefSet key) (p : Ptr) : Prop := σ.refs p ≤ 0

/-- `insert`, and what it returns points to. -/
def insert (σ : RefSet key) (value : Ptr) : RefSet key × Ptr :=
  match σ.members.find? (key value) with
  | none => ({ σ with members := σ.members.insert value }.addRef value, value)
  | some it => (σ, it)

/-- `insertHint`: it takes a reference whether or not the value goes in, as the container's result
is not looked at. With an absent key it does. -/
def insertHint (σ : RefSet key) (value : Ptr) : RefSet key × Ptr :=
  let it := (σ.members.find? (key value)).getD value
  ({ σ with members := σ.members.insert value }.addRef value, it)

/-- `insertOrReplace`. The handle `prev` adopts the set's reference to the element that is
replaced, and releases it. -/
def insertOrReplace (σ : RefSet key) (value : Ptr) : RefSet key × Ptr :=
  match σ.members.find? (key value) with
  | none => ({ σ with members := σ.members.insert value }.addRef value, value)
  | some prev =>
    (({ σ with members := σ.members.replace value }.release prev).addRef value, value)

/-- `remove`: the member goes, and the reference that the insertion took for it stays where it
is. -/
def remove (σ : RefSet key) (value : Ptr) : RefSet key :=
  { σ with members := σ.members.erase (key value) }

/-- The destructor: `clear_and_dispose` with `release`, which gives back a reference for each
member. -/
def clear (σ : RefSet key) : RefSet key :=
  { σ.members.elems.foldl release σ with members := .empty }

end RefSet

/-- `RequestIdSet::ValueCompare`: the key of an object is read off the object, which keeps its
market and id while it is a member. -/
def RequestIdSet.key (request : Ptr → Request) (p : Ptr) : Mnem ×ₗ Int :=
  toLex ((request p).market, (request p).id)

/-- `RequestIdSet`, over objects at addresses: of what a request holds only the key matters to the
set. -/
abbrev RequestIdSet (request : Ptr → Request) := RefSet (RequestIdSet.key request)

/-- `OrderRefSet::ValueCompare`: contract and settlement day, which all orders of one market have
in common. -/
def OrderRefSet.key (order : Ptr → Order) (p : Ptr) : Mnem ×ₗ Int :=
  toLex ((order p).contr, (order p).settlDay)

/-- `OrderRefSet`, over orders at addresses, with the operations that both kinds of sets have. -/
abbrev OrderRefSet (order : Ptr → Order) := RefSet (OrderRefSet.key order)

/-! ### Runs -/

/-- The operations on a set, and what happens to the handles outside of it. -/
inductive RefOp
  | insert (value : Ptr)
  | insertHint (value : Ptr)
  | insertOrReplace (value : Ptr)
  | remove (value : Ptr)
  /-- Another handle is made, of a handle or of a member. -/
  | copy (p : Ptr)
  /-- A handle goes. -/
  | drop (p : Ptr)
  deriving DecidableEq

namespace RefOp

variable {κ : Type} [LinearOrder κ] {key : Ptr → κ}

/-- What an operation does. -/
def apply (σ : RefSet key) : RefOp → RefSet key
  | insert p => (σ.insert p).1
  | insertHint p => (σ.insertHint p).1
  | insertOrReplace p => (σ.insertOrReplace p).1
  | remove p => σ.remove p
  | copy p => { σ with handles := Function.update σ.handles p (σ.handles p + 1) }.addRef p
  | drop p => { σ with handles := Function.update σ.handles p (σ.handles p - 1) }.release p

/-- A value comes with a handle to it; the key of one inserted at a hint is absent, and what
is removed is a member. -/
def Allowed (σ : RefSet key) : RefOp → Prop
  | insert p => 0 < σ.handles p
  | insertHint p => 0 < σ.handles p ∧ σ.members.find? (key p) = none
  | insertOrReplace p => 0 < σ.handles p
  | remove p => p ∈ σ.members.elems
  | copy p => 0 < σ.handles p ∨ p ∈ σ.members.elems
  | drop p => 0 < σ.handles p

/-- One operation that is allowed where it is made. What it returns is not part of the step; it is
the address of a member. -/
def Step (σ : RefSet key) (op : RefOp) (σ' : RefSet key) : Prop :=
  op.Allowed σ ∧ σ' = op.apply σ

end RefOp

namespace RefSet

variable {κ : Type} [LinearOrder κ] {key : Ptr → κ} {σ σ' : RefSet key}

/-- One reference for each handle, and one for a member. -/
def held (σ : RefSet key) (p : Ptr) : Int :=
  σ.handles p + if p ∈ σ.members.elems then 1 else 0

/-- **Each object has the references that hold it.** -/
def Balanced (σ : RefSet key) : Prop := ∀ p, σ.refs p = σ.held p

/-- The references that nothing holds: no handle outside gives them back, and no set. An object
with one is never deleted. -/
def surplus (σ : RefSet key) (p : Ptr) : Int := σ.refs p - σ.held p

theorem balanced_iff_surplus : σ.Balanced ↔ ∀ p, σ.surplus p = 0 :=
  forall_congr' (fun _ => Int.sub_eq_zero.symm)

theorem surplus_fresh (handles : Ptr → Nat) (p : Ptr) :
    (fresh handles : RefSet key).surplus p = 0 := by
  simp [surplus, held, fresh]

/-! ### What an operation does to the balance -/

section Surplus

variable (p q : Ptr)

theorem refs_addRef : (σ.addRef p).refs q = σ.refs q + if q = p then 1 else 0 := by
  unfold addRef
  dsimp only
  rw [Function.update_apply]
  split
  · next h => rw [h]
  · exact (add_zero _).symm

theorem refs_release : (σ.release p).refs q = σ.refs q - if q = p then 1 else 0 := by
  unfold release
  dsimp only
  rw [Function.update_apply]
  split
  · next h => rw [h]
  · exact (sub_zero _).symm

theorem held_addRef : (σ.addRef p).held q = σ.held q := rfl

theorem held_release : (σ.release p).held q = σ.held q := rfl

theorem surplus_addRef : (σ.addRef p).surplus q = σ.surplus q + if q = p then 1 else 0 := by
  unfold surplus
  rw [held_addRef, refs_addRef]
  ring

theorem surplus_release : (σ.release p).surplus q = σ.surplus q - if q = p then 1 else 0 := by
  unfold surplus
  rw [held_release, refs_release]
  ring

/-- What comes into the set is held once more, and what goes out of it once less. -/
theorem surplus_members (m : KeySet key) : { σ with members := m }.surplus q =
    σ.surplus q + (if q ∈ σ.members.elems then 1 else 0) - if q ∈ m.elems then 1 else 0 := by
  simp only [surplus, held]
  ring

theorem surplus_handles (n : Nat) :
    { σ with handles := Function.update σ.handles p n }.surplus q =
      σ.surplus q + if q = p then (σ.handles p : Int) - n else 0 := by
  simp only [surplus, held, Function.update_apply]
  split
  · next h => rw [h]; ring
  · ring

variable {p}

/-- An element that is new to the set comes with a reference. -/
theorem surplus_insert_addRef (hp : σ.members.find? (key p) = none) :
    ({ σ with members := σ.members.insert p }.addRef p).surplus q = σ.surplus q := by
  have hnot : p ∉ σ.members.elems := fun hmem => KeySet.find?_eq_none_iff.mp hp p hmem rfl
  have hmem := KeySet.mem_insert (x := q) hp
  rw [surplus_addRef, surplus_members]
  by_cases hq : q = p
  · subst hq
    rw [if_neg hnot, if_pos (hmem.mpr (.inl rfl)), if_pos rfl]
    ring
  · have hiff : q ∈ (σ.members.insert p).elems ↔ q ∈ σ.members.elems :=
      hmem.trans (or_iff_right hq)
    simp only [hiff, if_neg hq]
    ring

/-- An element that takes the place of another comes with a reference, and that of the other
is given back. The two may be one. -/
theorem surplus_replace_release_addRef {prev : Ptr}
    (hprev : σ.members.find? (key p) = some prev) :
    (({ σ with members := σ.members.replace p }.release prev).addRef p).surplus q =
      σ.surplus q := by
  obtain ⟨hmem, hkey⟩ := KeySet.mem_of_find? hprev
  have hreplace := KeySet.mem_replace (x := q) hprev
  rw [surplus_addRef, surplus_release, surplus_members]
  by_cases hq : q = p
  · subst hq
    have hiff : q ∈ σ.members.elems ↔ q = prev := by
      refine ⟨fun hq => KeySet.eq_of_key_eq hq hmem hkey.symm, fun hq => hq ▸ hmem⟩
    simp only [hiff, if_pos (hreplace.mpr (.inl rfl)), if_pos]
    ring
  · have hiff : q ∈ (σ.members.replace p).elems ↔ q ∈ σ.members.elems ∧ q ≠ prev :=
      hreplace.trans (or_iff_right hq)
    simp only [hiff, if_neg hq]
    by_cases hqprev : q = prev
    · subst hqprev
      simp [hmem]
    · simp [hqprev]

theorem surplus_insert (p : Ptr) : (σ.insert p).1.surplus q = σ.surplus q := by
  unfold insert
  split
  · next hfind => exact surplus_insert_addRef q hfind
  · rfl

theorem surplus_insertHint (hp : σ.members.find? (key p) = none) :
    (σ.insertHint p).1.surplus q = σ.surplus q :=
  surplus_insert_addRef q hp

theorem surplus_insertOrReplace (p : Ptr) :
    (σ.insertOrReplace p).1.surplus q = σ.surplus q := by
  unfold insertOrReplace
  split
  · next hfind => exact surplus_insert_addRef q hfind
  · next hfind => exact surplus_replace_release_addRef q hfind

/-- The element that goes out of the set is no longer held by it, and keeps the reference. -/
theorem surplus_remove (hp : p ∈ σ.members.elems) :
    (σ.remove p).surplus q = σ.surplus q + if q = p then 1 else 0 := by
  have hmem : q ∈ (σ.members.erase (key p)).elems ↔ q ∈ σ.members.elems ∧ q ≠ p := by
    rw [KeySet.mem_erase]
    refine and_congr_right (fun hq => not_congr ⟨fun hkey => ?_, fun hqp => hqp ▸ rfl⟩)
    exact KeySet.eq_of_key_eq hq hp hkey
  rw [remove, surplus_members]
  simp only [hmem]
  by_cases hq : q = p
  · subst hq
    simp [hp]
  · simp [hq]

theorem surplus_copy (p : Ptr) :
    (RefOp.apply σ (.copy p)).surplus q = σ.surplus q := by
  rw [RefOp.apply, surplus_addRef, surplus_handles]
  split
  · push_cast
    ring
  · ring

theorem surplus_drop (hp : 0 < σ.handles p) :
    (RefOp.apply σ (.drop p)).surplus q = σ.surplus q := by
  rw [RefOp.apply, surplus_release, surplus_handles]
  split
  · omega
  · ring

/-- **An operation keeps the balance of every object, unless it removes it.** -/
theorem surplus_apply {op : RefOp} (hop : op.Allowed σ) :
    (op.apply σ).surplus q = σ.surplus q + if op = .remove q then 1 else 0 := by
  cases op with
  | insert p => simpa [RefOp.apply] using surplus_insert q p
  | insertHint p => simpa [RefOp.apply] using surplus_insertHint q hop.2
  | insertOrReplace p => simpa [RefOp.apply] using surplus_insertOrReplace q p
  | remove p =>
      rw [RefOp.apply, surplus_remove q hop]
      simp only [RefOp.remove.injEq, @eq_comm _ p q]
  | copy p => simpa using surplus_copy q p
  | drop p => simpa using surplus_drop q hop

end Surplus

/-! ### The balance along a run -/

theorem balanced_fresh (handles : Ptr → Nat) : (fresh handles : RefSet key).Balanced :=
  balanced_iff_surplus.mpr (surplus_fresh handles)

/-- An operation on balanced objects leaves them balanced exactly if it is no removal. -/
theorem balanced_apply_iff {op : RefOp} (hσ : σ.Balanced) (hop : op.Allowed σ) :
    (op.apply σ).Balanced ↔ ∀ p, op ≠ .remove p := by
  rw [balanced_iff_surplus] at hσ ⊢
  refine forall_congr' (fun p => ?_)
  rw [surplus_apply p hop, hσ p]
  split
  · next h => simp [h]
  · next h => simp [h]

/-- **Each removal leaves one reference behind.** -/
theorem surplus_run {handles : Ptr → Nat} {trace : List (RefSet key × RefOp)}
    (hrun : Traced RefOp.Step (fresh handles) trace σ) (p : Ptr) :
    σ.surplus p = (trace.map Prod.snd).count (.remove p) := by
  induction hrun with
  | nil => exact surplus_fresh handles p
  | snoc _ hstep ih =>
      obtain ⟨hop, rfl⟩ := hstep
      rw [surplus_apply p hop, ih, List.map_append, List.count_append]
      simp [List.count_singleton]

/-- An object that was removed is never deleted. -/
theorem not_deleted_of_removed {handles : Ptr → Nat} {trace : List (RefSet key × RefOp)}
    (hrun : Traced RefOp.Step (fresh handles) trace σ) {p : Ptr}
    (hp : .remove p ∈ trace.map Prod.snd) : ¬ σ.Deleted p := by
  have hcount := List.count_pos_iff.mpr hp
  have hsurplus := surplus_run hrun p
  have hheld : 0 ≤ σ.held p := by
    unfold held
    split <;> omega
  unfold surplus at hsurplus
  unfold Deleted
  omega

/-- **A run is balanced throughout exactly as long as nothing is removed.** -/
theorem balanced_run_iff {handles : Ptr → Nat} {trace : List (RefSet key × RefOp)}
    (hrun : Traced RefOp.Step (fresh handles) trace σ) :
    (∀ e ∈ trace, e.1.Balanced) ∧ σ.Balanced ↔ ∀ e ∈ trace, ∀ p, e.2 ≠ .remove p :=
  hrun.holds_iff (I := fun _ => True) (C := fun _ op => ∀ p, op ≠ .remove p) trivial
    (balanced_fresh handles) (fun _ _ _ _ _ => trivial) (fun _ _ _ _ hσ ⟨hop, heq⟩ =>
      heq ▸ balanced_apply_iff hσ hop)

theorem refs_foldl_release (l : List Ptr) (q : Ptr) :
    (l.foldl release σ).refs q = σ.refs q - l.count q := by
  induction l generalizing σ with
  | nil => simp
  | cons p l ih =>
      rw [List.foldl_cons, ih, refs_release, List.count_cons]
      simp only [beq_iff_eq, eq_comm (a := p)]
      push_cast
      ring

theorem handles_foldl_release (l : List Ptr) : (l.foldl release σ).handles = σ.handles := by
  induction l generalizing σ with
  | nil => rfl
  | cons p l ih => rw [List.foldl_cons, ih, release]

/-- **The destructor gives every reference back.** -/
theorem balanced_clear (hσ : σ.Balanced) : σ.clear.Balanced := by
  intro p
  have hcount : (σ.members.elems.count p : Int) = if p ∈ σ.members.elems then 1 else 0 := by
    split
    · next hp => rw [List.count_eq_one_of_mem σ.members.nodup hp, Nat.cast_one]
    · next hp => rw [List.count_eq_zero.mpr hp, Nat.cast_zero]
  have hheld : σ.clear.held p = σ.handles p := by
    rw [held, clear, handles_foldl_release, KeySet.empty_elems, if_neg List.not_mem_nil,
      add_zero]
  rw [hheld, clear, refs_foldl_release, hσ p, held, hcount]
  ring

/-- The members after an insertion: one that has the key of the value stays. -/
theorem members_insert (σ : RefSet key) (value : Ptr) :
    (σ.insert value).1.members = σ.members.insert value := by
  unfold insert
  split
  · rfl
  · next hfind => exact (KeySet.insert_of_mem hfind).symm

end RefSet

/-! ### The two containers -/

/-- **Each set owns one reference to each of its elements, as long as nothing is removed.** -/
theorem balanced_iff (request : Ptr → Request) (order : Ptr → Order) (handles : Ptr → Nat) :
    (∀ (trace : List (RequestIdSet request × RefOp)) (σ : RequestIdSet request),
      Traced RefOp.Step (.fresh handles) trace σ →
      ((∀ e ∈ trace, e.1.Balanced) ∧ σ.Balanced ↔ ∀ e ∈ trace, ∀ p, e.2 ≠ .remove p)) ∧
    ∀ (trace : List (OrderRefSet order × RefOp)) (σ : OrderRefSet order),
      Traced RefOp.Step (.fresh handles) trace σ →
      ((∀ e ∈ trace, e.1.Balanced) ∧ σ.Balanced ↔ ∀ e ∈ trace, ∀ p, e.2 ≠ .remove p) :=
  ⟨fun _ _ hrun => RefSet.balanced_run_iff hrun, fun _ _ hrun => RefSet.balanced_run_iff hrun⟩

/-- A set of requests with one member, to which there is one handle. -/
def oneMember : RequestIdSet (fun _ => default) :=
  ((RefSet.fresh (fun _ => 1)).insert 0).1

theorem oneMember_run : Traced RefOp.Step (.fresh (fun _ => 1)) [(.fresh (fun _ => 1), .insert 0)]
    oneMember :=
  .snoc .nil ⟨Nat.one_pos, rfl⟩

/-- Requests of which two at a time have the same key. -/
def pairs (p : Ptr) : Request := { (default : Request) with id := (p / 2 : Nat) }

/-- A first request goes in. -/
def pairsFirst : RequestIdSet pairs := RefOp.apply (.fresh (fun _ => 1)) (.insert 0)

/-- The second one finds its key taken. -/
def pairsTaken : RequestIdSet pairs := RefOp.apply pairsFirst (.insert 1)

/-- It replaces the first. -/
def pairsReplaced : RequestIdSet pairs := RefOp.apply pairsTaken (.insertOrReplace 1)

/-- A third one has a key of its own, and goes in at a hint. -/
def pairsHinted : RequestIdSet pairs := RefOp.apply pairsReplaced (.insertHint 2)

theorem pairs_run : Traced RefOp.Step (.fresh (fun _ => 1))
    [(.fresh (fun _ => 1), .insert 0), (pairsFirst, .insert 1),
      (pairsTaken, .insertOrReplace 1), (pairsReplaced, .insertHint 2)] pairsHinted :=
  (((Traced.nil.snoc ⟨Nat.one_pos, rfl⟩).snoc ⟨Nat.one_pos, rfl⟩).snoc ⟨Nat.one_pos, rfl⟩).snoc
    ⟨⟨Nat.one_pos, by decide⟩, rfl⟩

theorem pairs_balanced : pairsTaken.Balanced ∧ pairsReplaced.Balanced ∧ pairsHinted.Balanced ∧
    pairsHinted.members.elems = [1, 2] := by
  obtain ⟨hall, hlast⟩ := ((balanced_iff pairs (fun _ => default) (fun _ => 1)).1 _ _
    pairs_run).mpr (by simp)
  exact ⟨hall (pairsTaken, .insertOrReplace 1) (by simp), hall (pairsReplaced, .insertHint 2)
    (by simp), hlast, by decide⟩

/-- The member is removed: there are two references, and only the handle holds one. -/
theorem oneMember_remove :
    Traced RefOp.Step (.fresh (fun _ => 1))
      [(.fresh (fun _ => 1), .insert 0), (oneMember, .remove 0)] (oneMember.remove 0) ∧
    0 ∉ (oneMember.remove 0).members.elems ∧ (oneMember.remove 0).handles 0 = 1 ∧
    (oneMember.remove 0).refs 0 = 2 ∧ ¬ (oneMember.remove 0).Balanced := by
  have hmem : 0 ∈ oneMember.members.elems := by decide
  have hnot : 0 ∉ (oneMember.remove 0).members.elems := by decide
  have hrefs : (oneMember.remove 0).refs 0 = 2 := by decide
  refine ⟨.snoc oneMember_run ⟨hmem, rfl⟩, hnot, rfl, hrefs, fun hbalanced => ?_⟩
  have hheld := hbalanced 0
  rw [hrefs, RefSet.held, if_neg hnot] at hheld
  exact absurd hheld (by decide)

end Swirly.RefCount
