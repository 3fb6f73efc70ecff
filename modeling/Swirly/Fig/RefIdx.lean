import Swirly.Lib.SearchTree
import Swirly.Lib.Trace
import Swirly.Elm.RefCount
import Swirly.Fig.TraderSess

/-!
# Swirly.Fig.RefIdx

**The index of a session's orders by reference.** `OrderRefSet` keeps its orders by contract
and settlement day, and looks them up by reference. It drops an order whose contract and day
are taken, and erases by contract and day. So it is a map from references to orders exactly
as long as contract and day tell the orders apart, and order them as their references do
(`refIdx_map_iff`).

How the container balances its tree is left open: a session comes with any tree that has the
elements of the set from left to right.

The sets of a session are the members of the sets that count references (`Owns`).
-/

namespace Swirly

open Lib (Heap KeySet SearchTree Traced)

/-- The reference that an order in the index is searched by. -/
def RefNode.ref (h : Heap Order) (n : RefNode) : List Byte := (h n.order).ref.buf

/-- `OrderRefSet::find`. -/
def OrderRefSet.find (h : Heap Order) (tree : SearchTree RefNode) (ref : List Byte) :
    Option OrderPtr :=
  (tree.search (RefNode.ref h) ref).map RefNode.order

/-- A session with the tree that its index has. -/
structure RefSess where
  sess : TraderSess
  tree : SearchTree RefNode
  elems_eq : tree.elems = sess.refIdx.elems

/-- The calls that are about the index. -/
inductive SessOp
  | insertOrder (order : OrderPtr)
  | removeOrder (order : OrderPtr)

/-- The session has the order. -/
def TraderSess.Has (u : TraderSess) (p : OrderPtr) : Prop := ∃ n ∈ u.orders.elems, n.order = p

/-- The index has the order. -/
def TraderSess.Indexes (u : TraderSess) (p : OrderPtr) : Prop :=
  ∃ n ∈ u.refIdx.elems, n.order = p

namespace SessOp

variable (h : Heap Order)

/-- What the call does to the session. -/
def apply (u : TraderSess) : SessOp → TraderSess
  | insertOrder p => u.insertOrder p (h p)
  | removeOrder p => u.removeOrder (h p)

/-- Orders with ids and references that no other order of the session has are inserted, and
orders that the session has are removed. -/
def Allowed (u : TraderSess) : SessOp → Prop
  | insertOrder p => ∀ q, u.Has q → (h q).id ≠ (h p).id ∧
      ((h p).ref.empty = false → (h q).ref ≠ (h p).ref)
  | removeOrder p => u.Has p

/-- Contract and day tell an inserted order from the orders that carry a reference, and order
it among them as its reference does. -/
def Agrees (u : TraderSess) : SessOp → Prop
  | insertOrder p => (h p).ref.empty = false → ∀ q, u.Has q → (h q).ref.empty = false →
      toLex ((h q).contr, (h q).settlDay) < toLex ((h p).contr, (h p).settlDay) ∧
          (h q).ref < (h p).ref ∨
        toLex ((h p).contr, (h p).settlDay) < toLex ((h q).contr, (h q).settlDay) ∧
          (h p).ref < (h q).ref
  | removeOrder _ => True

end SessOp

/-- What the index is for: it has the orders that carry a reference, and finds the order with
a reference if there is one. -/
structure RefSess.IsMap (h : Heap Order) (σ : RefSess) : Prop where
  indexes : ∀ p, σ.sess.Indexes p ↔ σ.sess.Has p ∧ (h p).ref.empty = false
  find : ∀ ref p, OrderRefSet.find h σ.tree ref = some p ↔
    σ.sess.Has p ∧ (h p).ref.empty = false ∧ (h p).ref.buf = ref

/-- One call. -/
def SessStep (h : Heap Order) (σ : RefSess) (op : SessOp) (σ' : RefSess) : Prop :=
  op.Allowed h σ.sess ∧ σ'.sess = op.apply h σ.sess

/-! ### The orders of the session -/

/-- The entry of an order among the session's orders. -/
def idNode (h : Heap Order) (p : OrderPtr) : OrderNode := ⟨(h p).market, (h p).id, p⟩

/-- The entry of an order in the index. -/
def refNode (h : Heap Order) (p : OrderPtr) : RefNode := ⟨(h p).contr, (h p).settlDay, p⟩

/-- What allowed calls preserve of the session's orders. -/
structure OrdersOk (h : Heap Order) (u : TraderSess) : Prop where
  id_entries : ∀ n ∈ u.orders.elems, n = idNode h n.order
  ref_entries : ∀ n ∈ u.refIdx.elems, n = refNode h n.order
  ids : ∀ p q, u.Has p → u.Has q → (h p).id = (h q).id → p = q
  refs : ∀ p q, u.Has p → u.Has q → (h p).ref.empty = false → (h p).ref = (h q).ref → p = q

/-- The sets of a session have the members of the sets that own the orders. -/
structure TraderSess.Owns (h : Heap Order) (u : TraderSess)
    (ids : RefCount.RequestIdSet (fun p => (h p).toRequest)) (refs : RefCount.OrderRefSet h) :
    Prop where
  orders : u.orders = ids.members.map (idNode h) (fun _ => rfl)
  refIdx : u.refIdx = refs.members.map (refNode h) (fun _ => rfl)

section Owns

variable {h : Heap Order} {u : TraderSess}
  {ids : RefCount.RequestIdSet (fun p => (h p).toRequest)} {refs : RefCount.OrderRefSet h}

/-- Both sets take a reference to the order, if they take the order. -/
theorem TraderSess.Owns.insertOrder (hu : u.Owns h ids refs) (p : OrderPtr) :
    (u.insertOrder p (h p)).Owns h (ids.insert p).1
      (if (h p).ref.empty then refs else (refs.insert p).1) where
  orders := by
    rw [insertOrder_orders, hu.orders, RefCount.RefSet.members_insert]
    exact KeySet.insert_map ids.members p
  refIdx := by
    rw [insertOrder_refIdx, hu.refIdx]
    split
    · rfl
    · rw [RefCount.RefSet.members_insert]
      exact KeySet.insert_map refs.members p

/-- Neither set gives its reference back. -/
theorem TraderSess.Owns.removeOrder (hu : u.Owns h ids refs) (p : OrderPtr) :
    (u.removeOrder (h p)).Owns h (ids.remove p)
      (if (h p).ref.empty then refs else refs.remove p) where
  orders := by
    rw [removeOrder_orders, hu.orders]
    exact KeySet.erase_map ids.members _
  refIdx := by
    rw [removeOrder_refIdx, hu.refIdx]
    split
    · rfl
    · exact KeySet.erase_map refs.members _

end Owns

section Orders

variable {h : Heap Order} {u : TraderSess} {p q : OrderPtr} {op : SessOp}

theorem OrdersOk.has_iff (ho : OrdersOk h u) : u.Has p ↔ idNode h p ∈ u.orders.elems := by
  constructor
  · rintro ⟨n, hn, rfl⟩
    exact ho.id_entries n hn ▸ hn
  · intro hmem
    exact ⟨_, hmem, rfl⟩

theorem OrdersOk.indexes_iff (ho : OrdersOk h u) :
    u.Indexes p ↔ refNode h p ∈ u.refIdx.elems := by
  constructor
  · rintro ⟨n, hn, rfl⟩
    exact ho.ref_entries n hn ▸ hn
  · intro hmem
    exact ⟨_, hmem, rfl⟩

/-- A session gains the order that is inserted. -/
theorem OrdersOk.has_insertOrder (ho : OrdersOk h u)
    (hallowed : (SessOp.insertOrder p).Allowed h u) :
    (u.insertOrder p (h p)).Has q ↔ q = p ∨ u.Has q := by
  have hnone : u.orders.find? (idNode h p).key = none := by
    refine KeySet.find?_eq_none_iff.mpr (fun n hn hkey => ?_)
    have hid : (h n.order).id = (h p).id := by
      rw [ho.id_entries n hn] at hkey
      exact (Prod.mk.inj (toLex_inj.mp hkey)).2
    exact (hallowed n.order ⟨n, hn, rfl⟩).1 hid
  unfold TraderSess.Has
  rw [TraderSess.insertOrder_orders]
  constructor
  · rintro ⟨n, hn, rfl⟩
    rcases (KeySet.mem_insert hnone).mp hn with rfl | hn
    · exact Or.inl rfl
    · exact Or.inr ⟨n, hn, rfl⟩
  · rintro (rfl | ⟨n, hn, rfl⟩)
    · exact ⟨_, (KeySet.mem_insert hnone).mpr (Or.inl rfl), rfl⟩
    · exact ⟨n, (KeySet.mem_insert hnone).mpr (Or.inr hn), rfl⟩

/-- A session loses the order that is removed. -/
theorem OrdersOk.has_removeOrder (ho : OrdersOk h u) (hp : u.Has p) :
    (u.removeOrder (h p)).Has q ↔ u.Has q ∧ q ≠ p := by
  have hkey : ∀ n ∈ u.orders.elems, n.key = (idNode h p).key ↔ n.order = p := by
    intro n hn
    constructor
    · intro heq
      have hn' := KeySet.eq_of_key_eq hn (ho.has_iff.mp hp) heq
      rw [hn']
      rfl
    · rintro rfl
      rw [← ho.id_entries n hn]
  unfold TraderSess.Has
  rw [TraderSess.removeOrder_orders]
  constructor
  · rintro ⟨n, hn, rfl⟩
    obtain ⟨hn, hne⟩ := KeySet.mem_erase.mp hn
    exact ⟨⟨n, hn, rfl⟩, fun heq => hne ((hkey n hn).mpr heq)⟩
  · rintro ⟨⟨n, hn, rfl⟩, hne⟩
    exact ⟨n, KeySet.mem_erase.mpr ⟨hn, fun heq => hne ((hkey n hn).mp heq)⟩, rfl⟩

theorem mem_insertOrder_refIdx {n : RefNode} (hn : n ∈ (u.insertOrder p (h p)).refIdx.elems) :
    n = refNode h p ∧ (h p).ref.empty = false ∨ n ∈ u.refIdx.elems := by
  rw [TraderSess.insertOrder_refIdx] at hn
  split at hn
  · exact Or.inr hn
  · next href =>
      exact (KeySet.mem_of_mem_insert hn).imp_left (fun heq => ⟨heq, by simpa using href⟩)

theorem mem_removeOrder_refIdx {n : RefNode} (hn : n ∈ (u.removeOrder (h p)).refIdx.elems) :
    n ∈ u.refIdx.elems := by
  rw [TraderSess.removeOrder_refIdx] at hn
  split at hn
  · exact hn
  · exact (KeySet.mem_erase.mp hn).1

theorem OrdersOk.step (ho : OrdersOk h u) (hallowed : op.Allowed h u) :
    OrdersOk h (op.apply h u) := by
  cases op with
  | insertOrder p =>
      have hhas : ∀ {q}, (u.insertOrder p (h p)).Has q → q = p ∨ u.Has q :=
        fun hq => (ho.has_insertOrder hallowed).mp hq
      refine ⟨fun n hn => ?_, fun n hn => ?_, fun q r hq hr hid => ?_,
        fun q r hq hr href heq => ?_⟩
      · have hn' : n ∈ (u.insertOrder p (h p)).orders.elems := hn
        rw [TraderSess.insertOrder_orders] at hn'
        rcases KeySet.mem_of_mem_insert hn' with rfl | hn'
        · rfl
        · exact ho.id_entries n hn'
      · rcases mem_insertOrder_refIdx hn with ⟨rfl, -⟩ | hn
        · rfl
        · exact ho.ref_entries n hn
      · rcases hhas hq with rfl | hq'
        · rcases hhas hr with rfl | hr'
          · rfl
          · exact absurd hid.symm (hallowed r hr').1
        · rcases hhas hr with rfl | hr'
          · exact absurd hid (hallowed q hq').1
          · exact ho.ids q r hq' hr' hid
      · rcases hhas hq with rfl | hq'
        · rcases hhas hr with rfl | hr'
          · rfl
          · exact absurd heq.symm ((hallowed r hr').2 href)
        · rcases hhas hr with rfl | hr'
          · exact absurd heq ((hallowed q hq').2 (heq ▸ href))
          · exact ho.refs q r hq' hr' href heq
  | removeOrder p =>
      have hhas : ∀ {q}, (u.removeOrder (h p)).Has q → u.Has q :=
        fun hq => ((ho.has_removeOrder hallowed).mp hq).1
      refine ⟨fun n hn => ?_, fun n hn => ho.ref_entries n (mem_removeOrder_refIdx hn),
        fun q r hq hr => ho.ids q r (hhas hq) (hhas hr),
        fun q r hq hr => ho.refs q r (hhas hq) (hhas hr)⟩
      have hn' : n ∈ (u.removeOrder (h p)).orders.elems := hn
      rw [TraderSess.removeOrder_orders] at hn'
      exact ho.id_entries n (KeySet.mem_erase.mp hn').1

end Orders

/-! ### The index -/

/-- The index has the orders with a reference, in the order of their references. -/
structure Indexed (h : Heap Order) (u : TraderSess) : Prop where
  indexes : ∀ p, u.Indexes p ↔ u.Has p ∧ (h p).ref.empty = false
  mono : ∀ m ∈ u.refIdx.elems, ∀ n ∈ u.refIdx.elems, m.key < n.key → m.ref h < n.ref h

section Indexed

variable {h : Heap Order} {u : TraderSess} {p q : OrderPtr} {op : SessOp}

/-- The elements stand in the order of their keys, so that of two of them one comes first. -/
theorem Indexed.pairwise_iff (u : TraderSess) :
    (∀ m ∈ u.refIdx.elems, ∀ n ∈ u.refIdx.elems, m.key < n.key → m.ref h < n.ref h) ↔
      u.refIdx.elems.Pairwise (fun m n => m.ref h < n.ref h) := by
  constructor
  · intro hmono
    exact u.refIdx.sorted.imp_of_mem (fun hm hn hlt => hmono _ hm _ hn hlt)
  · intro hsorted m hm n hn hlt
    have hor : u.refIdx.elems.Pairwise (fun m n =>
        (m.key < n.key → m.ref h < n.ref h) ∧ (n.key < m.key → n.ref h < m.ref h)) :=
      hsorted.imp₂ (fun m n href hkey => ⟨fun _ => href, fun hkey' => absurd hkey' hkey.asymm⟩)
        u.refIdx.sorted
    have hsymm : Std.Symm (fun m n : RefNode =>
        (m.key < n.key → m.ref h < n.ref h) ∧ (n.key < m.key → n.ref h < m.ref h)) :=
      ⟨fun _ _ hand => ⟨hand.2, hand.1⟩⟩
    exact (hor.forall hm hn (fun heq => by rw [heq] at hlt; exact lt_irrefl _ hlt)).1 hlt

theorem nodup_refs (ho : OrdersOk h u)
    (hidx : ∀ p, u.Indexes p → u.Has p ∧ (h p).ref.empty = false) :
    (u.refIdx.elems.map (RefNode.ref h)).Nodup := by
  refine List.Nodup.map_on (fun m hm n hn heq => ?_) u.refIdx.nodup
  obtain ⟨hhas, href⟩ := hidx m.order ⟨m, hm, rfl⟩
  have hsame := ho.refs m.order n.order hhas (hidx n.order ⟨n, hn, rfl⟩).1 href
    (FixedString.ext heq)
  rw [ho.ref_entries m hm, ho.ref_entries n hn, hsame]

/-- **The search finds what it should exactly if the index is in the order of the
references.** -/
theorem isMap_iff {σ : RefSess} (ho : OrdersOk h σ.sess) : σ.IsMap h ↔ Indexed h σ.sess := by
  have hmem : ∀ n, n ∈ σ.tree.elems ↔ n ∈ σ.sess.refIdx.elems := fun n => by rw [σ.elems_eq]
  constructor
  · intro hmap
    refine ⟨hmap.indexes, (Indexed.pairwise_iff _).mpr ?_⟩
    rw [← σ.elems_eq]
    refine (SearchTree.sorted_iff_search ?_).mpr (fun n hn => ?_)
    · rw [σ.elems_eq]
      exact nodup_refs ho (fun p => (hmap.indexes p).mp)
    · rw [hmem] at hn
      obtain ⟨hhas, href⟩ := (hmap.indexes n.order).mp ⟨n, hn, rfl⟩
      obtain ⟨m, hsearch, horder⟩ :=
        Option.map_eq_some_iff.mp ((hmap.find (n.ref h) n.order).mpr ⟨hhas, href, rfl⟩)
      have hm := (hmem m).mp (SearchTree.search_spec hsearch).1
      rw [hsearch, ho.ref_entries m hm, ho.ref_entries n hn, horder]
  · intro hi
    have hsorted : σ.tree.elems.Pairwise (fun m n => m.ref h < n.ref h) := by
      rw [σ.elems_eq]
      exact (Indexed.pairwise_iff _).mp hi.mono
    refine ⟨hi.indexes, fun ref p => ?_⟩
    constructor
    · intro hfind
      obtain ⟨n, hsearch, rfl⟩ := Option.map_eq_some_iff.mp hfind
      obtain ⟨hn, href⟩ := SearchTree.search_spec hsearch
      obtain ⟨hhas, hne⟩ := (hi.indexes n.order).mp ⟨n, (hmem n).mp hn, rfl⟩
      exact ⟨hhas, hne, href⟩
    · rintro ⟨hhas, hne, href⟩
      obtain ⟨n, hn, rfl⟩ := (hi.indexes p).mpr ⟨hhas, hne⟩
      exact Option.map_eq_some_iff.mpr
        ⟨n, (SearchTree.search_eq_some_iff hsorted).mpr ⟨(hmem n).mpr hn, href⟩, rfl⟩

/-- An order without a reference leaves the index alone. -/
theorem Indexed.insert_of_empty (ho : OrdersOk h u) (hi : Indexed h u)
    (hallowed : (SessOp.insertOrder p).Allowed h u) (href : (h p).ref.empty = true) :
    Indexed h (u.insertOrder p (h p)) := by
  have hidx : (u.insertOrder p (h p)).refIdx = u.refIdx := by
    rw [TraderSess.insertOrder_refIdx, if_pos href]
  refine ⟨fun q => ?_, fun m hm n hn => ?_⟩
  · have hsame : (u.insertOrder p (h p)).Indexes q ↔ u.Indexes q := by
      unfold TraderSess.Indexes
      rw [hidx]
    rw [hsame, hi.indexes q, ho.has_insertOrder hallowed]
    constructor
    · rintro ⟨hq, hne⟩
      exact ⟨Or.inr hq, hne⟩
    · rintro ⟨rfl | hq, hne⟩
      · rw [href] at hne
        cases hne
      · exact ⟨hq, hne⟩
  · rw [hidx] at hm hn
    exact hi.mono m hm n hn

/-- An order in the index differs from one that agrees with it in key, and in the order that
it gives. -/
theorem SessOp.Agrees.compare (ho : OrdersOk h u) (hi : Indexed h u)
    (hagrees : (SessOp.insertOrder p).Agrees h u) (hrefp : (h p).ref.empty = false)
    {n : RefNode} (hn : n ∈ u.refIdx.elems) :
    n.key < (refNode h p).key ∧ n.ref h < (h p).ref.buf ∨
      (refNode h p).key < n.key ∧ (h p).ref.buf < n.ref h := by
  obtain ⟨hhas, href⟩ := (hi.indexes n.order).mp ⟨n, hn, rfl⟩
  rw [ho.ref_entries n hn]
  exact hagrees hrefp n.order hhas href

/-- An order with a reference goes in between those that it agrees with. -/
theorem Indexed.insert_of_agrees (ho : OrdersOk h u) (hi : Indexed h u)
    (hallowed : (SessOp.insertOrder p).Allowed h u)
    (hagrees : (SessOp.insertOrder p).Agrees h u) (hrefp : (h p).ref.empty = false) :
    Indexed h (u.insertOrder p (h p)) := by
  have hcmp := fun n hn => hagrees.compare ho hi hrefp (n := n) hn
  have hnone : u.refIdx.find? (refNode h p).key = none := by
    refine KeySet.find?_eq_none_iff.mpr (fun n hn => ?_)
    rcases hcmp n hn with ⟨hlt, -⟩ | ⟨hgt, -⟩
    · exact hlt.ne
    · exact hgt.ne'
  have hmem : ∀ {n}, n ∈ (u.insertOrder p (h p)).refIdx.elems ↔
      n = refNode h p ∨ n ∈ u.refIdx.elems := by
    intro n
    rw [TraderSess.insertOrder_refIdx, if_neg (by simp [hrefp])]
    exact KeySet.mem_insert hnone
  refine ⟨fun q => ?_, fun m hm n hn hlt => ?_⟩
  · have ho' : OrdersOk h (u.insertOrder p (h p)) := ho.step hallowed
    rw [ho'.indexes_iff, hmem, ho.has_insertOrder hallowed, ← ho.indexes_iff, hi.indexes q]
    constructor
    · rintro (heq | ⟨hq, href⟩)
      · have heq : q = p := congrArg RefNode.order heq
        exact ⟨Or.inl heq, heq ▸ hrefp⟩
      · exact ⟨Or.inr hq, href⟩
    · rintro ⟨rfl | hq, href⟩
      · exact Or.inl rfl
      · exact Or.inr ⟨hq, href⟩
  · rcases hmem.mp hm with rfl | hm
    · rcases hmem.mp hn with rfl | hn
      · exact absurd hlt (lt_irrefl _)
      · exact ((hcmp n hn).resolve_left (fun hand => hand.1.asymm hlt)).2
    · rcases hmem.mp hn with rfl | hn
      · exact ((hcmp m hm).resolve_right (fun hand => hand.1.asymm hlt)).2
      · exact hi.mono m hm n hn hlt

/-- **An insertion keeps the index a map exactly if it agrees with what is there.** -/
theorem Indexed.insert_iff (ho : OrdersOk h u) (hi : Indexed h u)
    (hallowed : (SessOp.insertOrder p).Allowed h u) :
    Indexed h (u.insertOrder p (h p)) ↔ (SessOp.insertOrder p).Agrees h u := by
  constructor
  · intro hi' hrefp q hq hrefq
    have ho' : OrdersOk h (u.insertOrder p (h p)) := ho.step hallowed
    have hmem : ∀ {r}, r = p ∨ u.Has r → (h r).ref.empty = false →
        refNode h r ∈ (u.insertOrder p (h p)).refIdx.elems := by
      intro r hr href
      exact ho'.indexes_iff.mp ((hi'.indexes r).mpr ⟨(ho.has_insertOrder hallowed).mpr hr, href⟩)
    have hp := hmem (Or.inl rfl) hrefp
    have hq' := hmem (Or.inr hq) hrefq
    have hne : (refNode h q).key ≠ (refNode h p).key := by
      intro hkey
      have heq : q = p := congrArg RefNode.order (KeySet.eq_of_key_eq hq' hp hkey)
      exact (hallowed q hq).1 (by rw [heq])
    rcases lt_or_gt_of_ne hne with hlt | hgt
    · exact Or.inl ⟨hlt, hi'.mono _ hq' _ hp hlt⟩
    · exact Or.inr ⟨hgt, hi'.mono _ hp _ hq' hgt⟩
  · intro hagrees
    cases hrefp : (h p).ref.empty with
    | true => exact hi.insert_of_empty ho hallowed hrefp
    | false => exact hi.insert_of_agrees ho hallowed hagrees hrefp

/-- A removal keeps the index a map: what it erases by contract and day is the order. -/
theorem Indexed.remove (ho : OrdersOk h u) (hi : Indexed h u) (hp : u.Has p) :
    Indexed h (u.removeOrder (h p)) := by
  have ho' : OrdersOk h (u.removeOrder (h p)) := 
    ho.step (show (SessOp.removeOrder p).Allowed h u from hp)
  refine ⟨fun q => ?_, fun m hm n hn =>
    hi.mono m (mem_removeOrder_refIdx hm) n (mem_removeOrder_refIdx hn)⟩
  have hmem : refNode h q ∈ (u.removeOrder (h p)).refIdx.elems ↔
      refNode h q ∈ u.refIdx.elems ∧ q ≠ p := by
    rw [TraderSess.removeOrder_refIdx]
    cases href : (h p).ref.empty with
    | true =>
        rw [if_pos rfl, ← ho.indexes_iff, hi.indexes q]
        constructor
        · rintro ⟨hq, hne⟩
          refine ⟨⟨hq, hne⟩, ?_⟩
          rintro rfl
          rw [href] at hne
          cases hne
        · exact And.left
    | false =>
        have hp' := ho.indexes_iff.mp ((hi.indexes p).mpr ⟨hp, href⟩)
        rw [if_neg (by simp), KeySet.mem_erase]
        refine and_congr_right (fun hq => not_congr ?_)
        constructor
        · intro hkey
          exact congrArg RefNode.order (KeySet.eq_of_key_eq hq hp' hkey)
        · rintro rfl
          rfl
  rw [ho'.indexes_iff, hmem, ho.has_removeOrder hp, ← ho.indexes_iff, hi.indexes q, and_right_comm]

theorem Indexed.step_iff (ho : OrdersOk h u) (hi : Indexed h u) (hallowed : op.Allowed h u) :
    Indexed h (op.apply h u) ↔ op.Agrees h u := by
  cases op with
  | insertOrder p => exact hi.insert_iff ho hallowed
  | removeOrder p => exact iff_of_true (hi.remove ho hallowed) trivial

end Indexed

/-! ### Runs -/

/-- **The index is a map from references to orders exactly as long as contract and day order
the orders as their references do.** -/
theorem refIdx_map_iff {h : Heap Order} {σ₀ σ : RefSess} {trace : List (RefSess × SessOp)}
    (horders : σ₀.sess.orders.elems = []) (hindex : σ₀.sess.refIdx.elems = [])
    (hrun : Traced (SessStep h) σ₀ trace σ) :
    (∀ e ∈ trace, e.1.IsMap h) ∧ σ.IsMap h ↔ ∀ e ∈ trace, e.2.Agrees h e.1.sess := by
  have hnone : ∀ p, ¬ σ₀.sess.Has p := by
    rintro p ⟨n, hn, -⟩
    rw [horders] at hn
    cases hn
  have h₀ : OrdersOk h σ₀.sess := by
    refine ⟨?_, ?_, fun p q hp => absurd hp (hnone p), fun p q hp => absurd hp (hnone p)⟩
    · simp [horders]
    · simp [hindex]
  have hmap₀ : σ₀.IsMap h := by
    refine (isMap_iff h₀).mpr ⟨fun p => iff_of_false ?_ (fun hand => hnone p hand.1), ?_⟩
    · rintro ⟨n, hn, -⟩
      rw [hindex] at hn
      cases hn
    · simp [hindex]
  have hkeep : ∀ σ op σ', OrdersOk h σ.sess → SessStep h σ op σ' → OrdersOk h σ'.sess := by
    intro σ op σ' ho hstep
    rw [hstep.2]
    exact ho.step hstep.1
  refine hrun.holds_iff (I := fun σ => OrdersOk h σ.sess)
    (C := fun σ op => op.Agrees h σ.sess) h₀ hmap₀ hkeep (fun σ op σ' ho hmap hstep => ?_)
  rw [isMap_iff (hkeep σ op σ' ho hstep), hstep.2]
  exact ((isMap_iff ho).mp hmap).step_iff ho hstep.1

namespace Mock

/-- Orders of one contract, with their addresses for ids, and `a`, `b`, ... for references. -/
def refHeap (day : OrderPtr → Int) : Heap Order where
  cell := fun p => { (default : Order) with
    id := p, settlDay := day p, ref := FixedString.assign 64 [Fin.ofNat 256 (96 + p)] }
  next := 3

/-- The orders settle on one day. -/
def oneDay : Heap Order := refHeap (fun _ => 2456730)

/-- Each order settles on a day of its own. -/
def ownDays : Heap Order := refHeap (fun p => 2456730 + p)

def noOrders : RefSess where
  sess :=
    { mnem := default, display := default, email := default, orders := .empty,
      trades := .empty, posns := .empty, refIdx := .empty }
  tree := .leaf
  elems_eq := rfl

/-- A first order is inserted. -/
def oneOrder (day : OrderPtr → Int) : RefSess where
  sess := noOrders.sess.insertOrder 1 (refHeap day 1)
  tree := .node .leaf (refNode (refHeap day) 1) .leaf
  elems_eq := rfl

/-- A second order of the same day is inserted. -/
def twoOneDay : RefSess where
  sess := (oneOrder (fun _ => 2456730)).sess.insertOrder 2 (oneDay 2)
  tree := .node .leaf (refNode oneDay 1) .leaf
  elems_eq := by decide

/-- A second order of the day after is inserted. -/
def twoOwnDays : RefSess where
  sess := (oneOrder (fun p => 2456730 + p)).sess.insertOrder 2 (ownDays 2)
  tree := .node .leaf (refNode ownDays 1) (.node .leaf (refNode ownDays 2) .leaf)
  elems_eq := by decide

theorem has_oneOrder {day : OrderPtr → Int} {q : OrderPtr} (hq : (oneOrder day).sess.Has q) :
    q = 1 := by
  obtain ⟨n, hn, rfl⟩ := hq
  have hn' : n ∈ [idNode (refHeap day) 1] := hn
  rw [List.mem_singleton.mp hn']
  rfl

/-- A session is given two orders. -/
theorem two_orders_run {day : OrderPtr → Int} {σ : RefSess}
    (hσ : σ.sess = (oneOrder day).sess.insertOrder 2 (refHeap day 2)) :
    Traced (SessStep (refHeap day)) noOrders
      [(noOrders, .insertOrder 1), (oneOrder day, .insertOrder 2)] σ := by
  have hone : SessStep (refHeap day) noOrders (.insertOrder 1) (oneOrder day) := by
    refine ⟨?_, rfl⟩
    rintro q ⟨n, hn, -⟩
    cases hn
  have htwo : SessStep (refHeap day) (oneOrder day) (.insertOrder 2) σ := by
    refine ⟨fun q hq => ?_, hσ⟩
    rw [has_oneOrder hq]
    refine ⟨?_, fun _ => ?_⟩
    · show (1 : Int) ≠ 2
      decide
    · show FixedString.assign 64 [Fin.ofNat 256 97] ≠ FixedString.assign 64 [Fin.ofNat 256 98]
      decide
  exact (Traced.nil.snoc hone).snoc htwo

end Mock

/-- Orders `a` and `b` of two days, in this order. -/
theorem own_days_map :
    (∀ e ∈ [(Mock.noOrders, SessOp.insertOrder 1),
      (Mock.oneOrder (fun p => 2456730 + p), SessOp.insertOrder 2)], e.1.IsMap Mock.ownDays) ∧
    Mock.twoOwnDays.IsMap Mock.ownDays := by
  refine (refIdx_map_iff rfl rfl (Mock.two_orders_run rfl)).mpr ?_
  simp only [List.forall_mem_cons]
  refine ⟨?_, ?_, List.forall_mem_nil _⟩
  · rintro - q ⟨n, hn, -⟩
    cases hn
  · intro _ q hq _
    rw [Mock.has_oneOrder hq]
    decide

/-- **The second order of one contract and day is not found**, although its id and its
reference are its own. -/
theorem second_order_lost :
    Traced (SessStep Mock.oneDay) Mock.noOrders
      [(Mock.noOrders, .insertOrder 1), (Mock.oneOrder (fun _ => 2456730), .insertOrder 2)]
      Mock.twoOneDay ∧
    Mock.twoOneDay.sess.Has 2 ∧ (Mock.oneDay 2).ref.buf = [98] ∧
    OrderRefSet.find Mock.oneDay Mock.twoOneDay.tree [98] = none ∧
    ¬ Mock.twoOneDay.IsMap Mock.oneDay := by
  have hhas : Mock.twoOneDay.sess.Has 2 := ⟨idNode Mock.oneDay 2, by decide, rfl⟩
  have hfind : OrderRefSet.find Mock.oneDay Mock.twoOneDay.tree [98] = none := by decide
  refine ⟨Mock.two_orders_run rfl, hhas, by decide, hfind, ?_⟩
  intro hmap
  have hsome := (hmap.find [98] 2).mpr ⟨hhas, by decide, by decide⟩
  rw [hfind] at hsome
  cases hsome

end Swirly
