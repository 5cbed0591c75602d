import Swirly.Verified.App.Sound

/-!
# Time priority

Within one price, a side lists its orders in the order of their ids: a new order has the last id of its market and goes
behind the others of its price, and no operation moves an order.
-/

namespace Swirly

open Function MarketSide

/-- Orders of one price are listed in the order of their ids. -/
def View.InTime (v : View) : Prop :=
  ∀ m s, (v.side m s).orders.Pairwise fun p q =>
    (v.heap.order p).ticks = (v.heap.order q).ticks → (v.heap.order p).id < (v.heap.order q).id

/-- Orders that leave, and quantities that change, do not disturb the sequence. -/
theorem View.InTime.kept {v v' : View} (inTime : v.InTime) (kept : Heap.Kept v.heap v'.heap)
    (sublist : ∀ m s, (v'.side m s).orders.Sublist (v.side m s).orders) : v'.InTime := by
  intro m s
  refine ((inTime m s).sublist (sublist m s)).imp fun {p q} before same => ?_
  rw [(kept.same p).ticks, (kept.same q).ticks] at same
  rw [(kept.same p).id, (kept.same q).id]
  exact before same

namespace App

variable {app app' : App} {op : Op} {a : Symbol} {m now : Int} {o : Order} {fs : List Fill} {v : View}

theorem Opened.inTime (inv : app.Inv) (new : New app a m o) (inTime : app.view.InTime) (opened : Opened app a m o now fs v) :
    v.InTime := by
  have placed := opened.placed
  have identity : ∀ q, q ≠ app.heap.orders.fresh → v.heap.order q = app.view.heap.order q := fun q differ =>
    placed.order_ne differ
  have old : ∀ n t, ∀ q ∈ (app.view.side n t).orders, v.heap.order q = app.view.heap.order q := fun n t q member =>
    identity q (OrdMap.ne_fresh (inv.live.present member))
  -- The listed orders of before are in time still.
  have before : ∀ n t, (app.view.side n t).orders.Pairwise fun p q =>
      (v.heap.order p).ticks = (v.heap.order q).ticks → (v.heap.order p).id < (v.heap.order q).id := fun n t =>
    (inTime n t).imp_of_mem fun {p q} pMember qMember ordered => by rwa [old n t p pMember, old n t q qMember]
  have own : (v.heap.order app.heap.orders.fresh).ticks = o.ticks ∧ (v.heap.order app.heap.orders.fresh).id = o.id := by
    rw [(placed.kept.same _).ticks, (placed.kept.same _).id, Heap.order_newOrder_self]
    exact ⟨rfl, rfl⟩
  have newOwn : (app.heap.newOrder (filled o now fs)).order app.heap.orders.fresh = filled o now fs :=
    Heap.order_newOrder_self _ _
  intro n t
  by_cases here : n = m ∧ t = o.side
  · obtain ⟨rfl, rfl⟩ := here
    cases placed.arranged with
    | inl same =>
      rw [same]
      exact before n o.side
    | inr inserted =>
      rw [inserted]
      unfold ordersWith
      have wf : WF o.side (app.heap.newOrder (filled o now fs)) (app.view.side n o.side) :=
        (inv.live.newOrder (filled o now fs)).wf n o.side
      have sorted := List.sorted_split wf.sorted ((app.heap.newOrder (filled o now fs)).key app.heap.orders.fresh)
      have split := before n o.side
      rw [sorted, List.pairwise_append] at split
      refine List.pairwise_append.mpr ⟨split.1, List.pairwise_cons.mpr ⟨fun q high same => ?_, split.2.1⟩,
        fun p low q later => ?_⟩
      · -- An order behind the new one has a worse price.
        obtain ⟨member, above⟩ := List.mem_filter.mp high
        have above := of_decide_eq_true above
        have sameOrder : (app.heap.newOrder (filled o now fs)).order q = app.view.heap.order q :=
          Heap.order_newOrder_ne _ _ (OrdMap.ne_fresh (inv.live.present member))
        rw [own.1, old n o.side q member] at same
        rw [Heap.key, Heap.key, newOwn, sameOrder, filled_same.side, filled_same.ticks, same,
          (inv.live.home member).2] at above
        exact absurd above (lt_irrefl _)
      · cases List.mem_cons.mp later with
        | inl here =>
          -- The new order has the last id of its market.
          have member := (List.mem_filter.mp low).1
          intro _
          rw [here, own.2, old n o.side p member, new.id]
          have bounded := inv.ids.bounded p (inv.live.present member)
          rw [(inv.live.home member).1] at bounded
          omega
        | inr high => exact split.2.2 p low q high
  · rw [placed.untouched n t here]
    exact before n t

theorem Effect.inTime (inv : app.Inv) (inTime : app.view.InTime) (effect : Effect app op app') : app'.view.InTime := by
  cases effect with
  | idle grown view execs => rw [view]; exact inTime
  | posted view archived execs silent => rw [view]; exact inTime
  | created checked opened commits ledger => exact (opened.inTime inv incoming_new inTime).kept commits.kept commits.sublist
  | changed held journaled changes execs => exact inTime.kept changes.kept changes.sublist
  | traded traded =>
    cases traded with
    | oneSided alone journal view matches_ execs_ execs => rw [view]; exact inTime
    | twoSided paired journal view matches_ execs_ execs => rw [view]; exact inTime
  | archived view archived owner execs silent => rw [view]; exact inTime

theorem Inv.inTime_run {Allowed : App → Op → Prop} {ops : List Op} (inv : app.Inv) (inTime : app.view.InTime)
    (run : Run App.step Allowed app ops app') : app'.view.InTime := by
  have kept : app'.Inv ∧ app'.view.InTime := by
    refine run.invariant (I := fun app => app.Inv ∧ app.view.InTime) ?_ ⟨inv, inTime⟩
    intro app op next ⟨inv, inTime⟩ _ stepped
    obtain ⟨app₀, view₀, -, inv₀, effect, -⟩ := step_effect inv stepped
    exact ⟨inv.step stepped, effect.inTime inv₀ (view₀ ▸ inTime)⟩
  exact kept.2

theorem inTime_make (capacity maxExecs : Nat) : (App.make capacity maxExecs).view.InTime := by
  intro m s
  cases s <;> exact .nil

end App

end Swirly
