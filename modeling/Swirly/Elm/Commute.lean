import Swirly.Elm.BookSideRun

/-!
# Swirly.Elm.Commute

**Operations on different orders of a side commute.** Two orders may share a level,
so one operation can change the lots, the count and the first order of the level
that the other finds, or destroy it. None of this has to be followed: an operation
on a resting order is a change of that order (`SideOp.change`) and either keeps it
in the list or erases it there (`SideOp.keeps`), and what it does to the levels is
determined by the orders and their list (`Rep.levels_unique`).
-/

namespace Swirly

open Lib (Heap)

namespace SideOp

/-! ### Operations on an order at rest -/

/-- The operation takes lots from an order at rest, or takes it off the side. -/
def Lowers (st : Heap Order × BookSide) (op : SideOp) : Prop :=
  op.order ∈ st.2.orders ∧
    match op with
    | insertOrder _ | createOrder _ _ => False
    | removeOrder _ | cancelOrder _ _ => True
    | reviseOrder p lots _ => (st.1 p).ReviseAsserts lots
    | takeOrder p lots _ => 0 < lots ∧ lots ≤ (st.1 p).resd

/-- What such an operation makes of its order. -/
def change : SideOp → Order → Order
  | insertOrder _, o | createOrder _ _, o => o
  | removeOrder _, o => o.setLevel none
  | cancelOrder _ now, o => (o.setLevel none).cancel now
  | reviseOrder _ lots now, o =>
      (if o.lots - lots < o.resd then o else o.setLevel none).revise lots now
  | takeOrder _ lots now, o => o.taken lots now

/-- Does the order stay on the side? -/
def keeps : SideOp → Order → Bool
  | insertOrder _, _ | createOrder _ _, _ => true
  | removeOrder _, _ | cancelOrder _ _, _ => false
  | reviseOrder _ lots _, o => o.lots - lots < o.resd
  | takeOrder _ lots _, o => lots < o.resd

variable {sd : Side} {h h' : Heap Order} {b b' : BookSide} {blocks : List Block} {op op' : SideOp}

/-- Whether an operation lowers its order is seen from the order. -/
theorem Lowers.congr (hop : op.Lowers (h, b)) (hh : h' op.order = h op.order)
    (hmem : op.order ∈ b'.orders) : op.Lowers (h', b') := by
  refine ⟨hmem, ?_⟩
  have howes := hop.2
  cases op with
  | insertOrder p | createOrder p now => exact howes
  | removeOrder p | cancelOrder p now => trivial
  | reviseOrder p lots now | takeOrder p lots now =>
      dsimp only [order] at hh howes ⊢
      rwa [hh]

theorem Lowers.heap (hr : Rep sd h b blocks) (hop : op.Lowers (h, b)) :
    (op.apply (h, b)).1 = h.modify op.order op.change := by
  have hp : op.order ∈ b.orders := hop.1
  cases op with
  | insertOrder p | createOrder p now => exact hop.2.elim
  | removeOrder p =>
      dsimp only [order] at hp
      simp only [apply, BookSide.removeOrder_of_mem hr hp, BookSide.removeFrom_heap]
      rfl
  | cancelOrder p now =>
      dsimp only [order] at hp
      simp only [apply, BookSide.cancelOrder, BookSide.removeOrder_of_mem hr hp,
        BookSide.removeFrom_heap, Heap.modify_modify]
      rfl
  | reviseOrder p lots now =>
      dsimp only [order] at hp
      simp only [apply, BookSide.reviseOrder, (hr.rests_key hp).level, BookSide.reduceLevel_heap,
        Heap.modify_modify]
      exact Heap.modify_congr rfl
  | takeOrder p lots now => exact BookSide.takeOrder_heap hr hp lots now

theorem Lowers.orders (hr : Rep sd h b blocks) (hop : op.Lowers (h, b)) :
    (op.apply (h, b)).2.orders =
      if op.keeps (h op.order) then b.orders else b.orders.erase op.order := by
  have hp : op.order ∈ b.orders := hop.1
  cases op with
  | insertOrder p | createOrder p now => exact hop.2.elim
  | removeOrder p =>
      dsimp only [order] at hp
      simp [apply, BookSide.removeOrder_of_mem hr hp, order, keeps]
  | cancelOrder p now =>
      dsimp only [order] at hp
      simp [apply, BookSide.cancelOrder, BookSide.removeOrder_of_mem hr hp, order, keeps]
  | reviseOrder p lots now =>
      dsimp only [order] at hp
      have horders := BookSide.reduceLevel_orders h b (h p).key p ((h p).lots - lots)
      simp only [apply, BookSide.reviseOrder, (hr.rests_key hp).level, horders, order]
      by_cases hlt : (h p).lots - lots < (h p).resd
      · simp [keeps, hlt]
      · simp [keeps, hlt]
  | takeOrder p lots now =>
      dsimp only [order] at hp
      simp only [apply, BookSide.takeOrder_orders hr hp, order]
      by_cases hlt : lots < (h p).resd
      · simp [keeps, hlt]
      · simp [keeps, hlt]

theorem Lowers.rep (hr : Rep sd h b blocks) (hop : op.Lowers (h, b)) :
    ∃ blocks', Rep sd (op.apply (h, b)).1 (op.apply (h, b)).2 blocks' := by
  have hp : op.order ∈ b.orders := hop.1
  cases op with
  | insertOrder p | createOrder p now => exact hop.2.elim
  | removeOrder p =>
      have hrep := BookSide.removeFrom_rep hr hp
      rwa [← BookSide.removeOrder_of_mem hr hp] at hrep
  | cancelOrder p now =>
      dsimp only [order] at hp
      obtain ⟨blocks', hr'⟩ := BookSide.removeFrom_rep hr hp
      refine ⟨blocks', ?_⟩
      simp only [apply, BookSide.cancelOrder, BookSide.removeOrder_of_mem hr hp]
      exact hr'.modify_of_not_mem hr.nodup.not_mem_erase _
  | reviseOrder p lots now =>
      dsimp only [order] at hp
      simp only [apply, BookSide.reviseOrder, (hr.rests_key hp).level]
      exact BookSide.reduceLevel_rep hr hp (fun _ => rfl) (fun _ => rfl) (fun _ => rfl) rfl
  | takeOrder p lots now => exact BookSide.takeOrder_rep hr hp lots now

/-! ### Two orders -/

/-- What one operation leaves of the order of another. -/
theorem Lowers.after (hr : Rep sd h b blocks) (hop : op.Lowers (h, b)) (hop' : op'.Lowers (h, b))
    (hne : op'.order ≠ op.order) : (op.apply (h, b)).1 op'.order = h op'.order ∧
      op'.Lowers (op.apply (h, b)) := by
  have hheap : (op.apply (h, b)).1 op'.order = h op'.order := by
    rw [hop.heap hr, Heap.modify_of_ne hne]
  have hmem : op'.order ∈ (op.apply (h, b)).2.orders := by
    rw [hop.orders hr]
    split
    · exact hop'.1
    · exact (List.mem_erase_of_ne hne).mpr hop'.1
  exact ⟨hheap, hop'.congr hheap hmem⟩

theorem Lowers.heap₂ (hr : Rep sd h b blocks) (hop : op.Lowers (h, b)) (hop' : op'.Lowers (h, b))
    (hne : op'.order ≠ op.order) : (op'.apply (op.apply (h, b))).1 =
      (h.modify op.order op.change).modify op'.order op'.change := by
  obtain ⟨blocks', hr'⟩ := hop.rep hr
  rw [← hop.heap hr]
  exact (hop.after hr hop' hne).2.heap hr'

theorem Lowers.orders₂ (hr : Rep sd h b blocks) (hop : op.Lowers (h, b))
    (hop' : op'.Lowers (h, b)) (hne : op'.order ≠ op.order) :
    (op'.apply (op.apply (h, b))).2.orders =
      let l := if op.keeps (h op.order) then b.orders else b.orders.erase op.order
      if op'.keeps (h op'.order) then l else l.erase op'.order := by
  obtain ⟨blocks', hr'⟩ := hop.rep hr
  obtain ⟨hheap, hafter⟩ := hop.after hr hop' hne
  have horders := hafter.orders hr'
  rwa [hheap, hop.orders hr] at horders

/-- **Operations on different orders commute**: the same order list, the same levels
with the same lots, counts and first orders, and the same fields of every order. -/
theorem apply_comm (hi : SideInv sd h b) (hop : op.Lowers (h, b)) (hop' : op'.Lowers (h, b))
    (hne : op.order ≠ op'.order) :
    op'.apply (op.apply (h, b)) = op.apply (op'.apply (h, b)) := by
  obtain ⟨blocks, hr⟩ := hi.rep
  have hheap : (op'.apply (op.apply (h, b))).1 = (op.apply (op'.apply (h, b))).1 := by
    rw [hop.heap₂ hr hop' hne.symm, hop'.heap₂ hr hop hne, Heap.modify_comm _ hne]
  have horders : (op'.apply (op.apply (h, b))).2.orders =
      (op.apply (op'.apply (h, b))).2.orders := by
    rw [hop.orders₂ hr hop' hne.symm, hop'.orders₂ hr hop hne]
    dsimp only
    split_ifs
    · rfl
    · rfl
    · rfl
    · exact List.erase_comm _ _
  obtain ⟨_, hr₁⟩ := hop.rep hr
  obtain ⟨_, hr₂⟩ := hop'.rep hr
  obtain ⟨_, hr₁₂⟩ := (hop.after hr hop' hne.symm).2.rep hr₁
  obtain ⟨_, hr₂₁⟩ := (hop'.after hr hop hne).2.rep hr₂
  rw [hheap] at hr₁₂
  exact Prod.ext hheap (hr₁₂.levels_unique hr₂₁ horders)

end SideOp

/-- The rest of one bid is taken, and the other one at its level is cancelled. -/
theorem bidsTaken_comm : bidsTaken.2.levels.elems.map Level.count = [2] ∧
    SideOp.apply (SideOp.apply bidsTaken (.takeOrder 0 6 1)) (.cancelOrder 1 2) =
      SideOp.apply (SideOp.apply bidsTaken (.cancelOrder 1 2)) (.takeOrder 0 6 1) :=
  ⟨by decide, SideOp.apply_comm (SideInv.run (SideInv.empty (fun _ => rfl)) bidsTaken_run)
    ⟨by decide, by decide, by decide⟩ ⟨by decide, trivial⟩ (by decide)⟩

end Swirly
