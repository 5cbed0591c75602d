import Swirly.Verified.App.Sound

/-!
# No crossed book

A new order rests only when no offer is left that its price crosses: what the match phase leaves open of the
opposite side lies behind the order's limit (`beyond`).
-/

namespace Swirly

open Function MarketSide

/-- Every bid is below every offer. -/
def View.Uncrossed (v : View) : Prop :=
  ∀ m, ∀ p ∈ (v.side m .buy).orders, ∀ q ∈ (v.side m .sell).orders, (v.heap.order p).ticks < (v.heap.order q).ticks

/-- The price of the first level. -/
def View.best (v : View) (m : Int) (s : Side) : Option Int :=
  (v.side m s).levels.first.map fun e => (v.heap.level e.2).ticks

/-- Orders that leave, and quantities that change, do not cross a book. -/
theorem View.Uncrossed.kept {v v' : View} (uncrossed : v.Uncrossed) (kept : Heap.Kept v.heap v'.heap)
    (subset : ∀ m s, ∀ q ∈ (v'.side m s).orders, q ∈ (v.side m s).orders) : v'.Uncrossed := by
  intro m p bid q offer
  rw [(kept.same p).ticks, (kept.same q).ticks]
  exact uncrossed m p (subset m _ p bid) q (subset m _ q offer)

namespace App

variable {app app' : App} {op : Op} {a : Symbol} {m : Int} {ref : Bytes} {side : Side} {lots ticks minLots now busDay : Int}
  {o : Order} {v : View}

/-- When the new order is not filled, what is left on the opposite side does not cross its price. -/
theorem beyond (inv : app.Inv) (sound : app.view.Sound) (positive : 0 < lots)
    (incoming : o = app.incoming a m ref side lots ticks minLots now)
    (short : (filled o now (app.incomingFills m o)).resdLots ≠ 0) {q : OrderPtr} (member : q ∈ app.makers m o)
    (left : ∀ f ∈ app.incomingFills m o, q = f.maker → (app.order q).resdLots ≠ f.lots) :
    ¬ Crosses o (app.order q).ticks := by
  intro crosses
  have fresh : o.resdLots = o.lots ∧ o.lots = lots := by rw [incoming]; exact ⟨rfl, rfl⟩
  have inOrder := inv.inOrder sound m
  obtain ⟨-, -, resdLots⟩ := incoming_filled o now incoming
  have openLots : ∀ x ∈ offers app.heap o (direct o) (app.makers m o), 0 < x.2 := fun x inside => by
    obtain ⟨listed, lots, -⟩ := mem_offers (show (x.1, x.2) ∈ _ from inside)
    rw [lots]
    exact inOrder.resdLots _ _ listed
  -- The demand is not met, so every offer within the limit is used up.
  have all : Greedy.fill o.lots (offers app.heap o (direct o) (app.makers m o)) =
      offers app.heap o (direct o) (app.makers m o) := by
    refine Greedy.fill_all (by omega) openLots fun met => short ?_
    rw [resdLots, sum_deals, met, Int.sub_self]
  have offered : (q, (app.order q).resdLots) ∈ offers app.heap o (direct o) (app.makers m o) := by
    have inside : q ∈ (app.makers m o).filter fun q => Crosses o (app.heap.order q).ticks :=
      List.mem_filter.mpr ⟨member, decide_eq_true crosses⟩
    rw [makers, ← takeWhile_crosses (inOrder.wf _) rfl] at inside
    exact List.mem_map.mpr ⟨q, inside, rfl⟩
  rw [← all, ← fresh.1, ← fillsOf_allocations app.heap (app.makers m o) o (app.view.maxId m + 1) (app.execs.fresh + 1)]
    at offered
  obtain ⟨f, matched, same⟩ := List.mem_map.mp offered
  obtain ⟨sameMaker, sameLots⟩ := Prod.mk.inj same
  exact left f matched sameMaker.symm sameLots.symm

theorem Opened.uncrossed {v' : View} (inv : app.Inv) (sound : app.view.Sound) (positive : 0 < lots)
    (uncrossed : app.view.Uncrossed) (incoming : o = app.incoming a m ref side lots ticks minLots now)
    (opened : Opened app a m o now (app.incomingFills m o) v)
    (commits : Commits a m o.side.opposite now ((app.incomingFills m o).map fun f => f.toMatch app.heap m) v v') :
    v'.Uncrossed := by
  have ownTicks : (v'.heap.order app.heap.orders.fresh).ticks = o.ticks := by
    rw [(commits.kept.same _).ticks, (opened.placed.kept.same _).ticks, Heap.order_newOrder_self]
  have otherTicks : ∀ n t, ∀ q ∈ (app.view.side n t).orders, (v'.heap.order q).ticks = (app.order q).ticks :=
    fun n t q member => by
      have differ : q ≠ app.heap.orders.fresh := OrdMap.ne_fresh (inv.live.present member)
      rw [(commits.kept.same _).ticks, (opened.placed.kept.same _).ticks, Heap.order_newOrder_ne _ _ differ]
      rfl
  -- What is listed is an old order that is not used up, or the new one.
  have listed : ∀ n t q, q ∈ (v'.side n t).orders →
      (q ∈ (app.view.side n t).orders ∧ ∀ f ∈ app.incomingFills m o, q = f.maker → (app.order q).resdLots ≠ f.lots) ∨
      (q = app.heap.orders.fresh ∧ n = m ∧ t = o.side ∧ (filled o now (app.incomingFills m o)).resdLots ≠ 0) :=
    fun n t q member => by
      obtain ⟨member, left⟩ := (commits.mem_orders (nodup_matches inv m o)).mp member
      cases (opened.placed.listed n t q).mp member with
      | inr here => exact .inr here
      | inl old =>
        refine .inl ⟨old, fun f matched here => ?_⟩
        have differ := OrdMap.ne_fresh (inv.live.present old)
        have same : v.heap.order q = app.order q := opened.placed.order_ne differ
        rw [← same]
        exact left _ (List.mem_map_of_mem matched) here
  intro n p bid q offer
  cases listed n _ p bid with
  | inl oldBid =>
    rw [otherTicks n _ p oldBid.1]
    cases listed n _ q offer with
    | inl oldOffer =>
      rw [otherTicks n _ q oldOffer.1]
      exact uncrossed n p oldBid.1 q oldOffer.1
    | inr new =>
      obtain ⟨rfl, rfl, ownSide, short⟩ := new
      have apart := beyond inv sound positive incoming short
        (show p ∈ (app.view.side n o.side.opposite).orders by rw [← ownSide]; exact oldBid.1) oldBid.2
      rw [ownTicks]
      simp only [Crosses, ← ownSide, reduceCtorEq, if_false] at apart
      omega
  | inr new =>
    obtain ⟨rfl, rfl, ownSide, short⟩ := new
    rw [ownTicks]
    cases listed n _ q offer with
    | inl oldOffer =>
      have apart := beyond inv sound positive incoming short
        (show q ∈ (app.view.side n o.side.opposite).orders by rw [← ownSide]; exact oldOffer.1) oldOffer.2
      rw [otherTicks n _ q oldOffer.1]
      simp only [Crosses, ← ownSide, if_true] at apart
      omega
    | inr both => exact absurd (both.2.2.1.trans ownSide.symm) nofun

theorem Effect.uncrossed (inv : app.Inv) (sound : app.view.Sound) (uncrossed : app.view.Uncrossed) (positive : op.Positive)
    (effect : Effect app op app') : app'.view.Uncrossed := by
  cases effect with
  | idle grown view execs => rw [view]; exact uncrossed
  | posted view archived execs silent => rw [view]; exact uncrossed
  | created checked opened commits ledger => exact opened.uncrossed inv sound positive uncrossed rfl commits
  | changed held journaled changes execs => exact uncrossed.kept changes.kept fun m s _ member => (changes.sublist m s).subset member
  | traded traded =>
    cases traded with
    | oneSided alone journal view matches_ execs_ execs => rw [view]; exact uncrossed
    | twoSided paired journal view matches_ execs_ execs => rw [view]; exact uncrossed
  | archived view archived owner execs silent => rw [view]; exact uncrossed

/-- The first level of a side has the price of an order of the side. -/
theorem best_listed (inv : app.Inv) {s : Side} {best : Int} (found : app.view.best m s = some best) :
    ∃ p ∈ (app.view.side m s).orders, (app.order p).ticks = best := by
  obtain ⟨⟨k, lp⟩, first, rfl⟩ := Option.map_eq_some_iff.mp found
  have wf := inv.live.wf m s
  have linked := (OrdMap.first_eq_some first).1
  obtain ⟨member, key⟩ := wf.first_mem linked
  refine ⟨_, member, composeKey_injective s ?_⟩
  rw [(wf.levelKey k lp linked).2, ← key, Heap.key, wf.orderSide _ member]
  rfl

/-- From empty books, no run leads to a crossed or locked one. -/
theorem uncrossed_of_run {ops : List Op} (inv : app.Inv) (empty : ∀ m s, (app.view.side m s).orders = [])
    (run : Run App.step (fun _ op => op.Positive) app ops app') :
    app'.view.Uncrossed ∧
      ∀ m bid offer, app'.view.best m .buy = some bid → app'.view.best m .sell = some offer → bid < offer := by
  have kept : (app'.Inv ∧ app'.view.Sound) ∧ app'.view.Uncrossed := by
    refine run.invariant (I := fun app => (app.Inv ∧ app.view.Sound) ∧ app.view.Uncrossed) ?_
      ⟨⟨inv, inv.sound_of_empty empty⟩, fun m p bid => ?_⟩
    · rintro app op next ⟨⟨inv, sound⟩, uncrossed⟩ positive stepped
      refine ⟨⟨inv.step stepped, inv.sound_step sound positive stepped⟩, ?_⟩
      obtain ⟨app₀, view₀, -, inv₀, effect, -⟩ := step_effect inv stepped
      exact effect.uncrossed inv₀ (view₀ ▸ sound) (view₀ ▸ uncrossed) positive
    · rw [empty] at bid
      cases bid
  refine ⟨kept.2, fun m bid offer bestBid bestOffer => ?_⟩
  obtain ⟨p, listedBid, rfl⟩ := best_listed kept.1.1 bestBid
  obtain ⟨q, listedOffer, rfl⟩ := best_listed kept.1.1 bestOffer
  exact kept.2 m p listedBid q listedOffer

/-- A buyer that is filled in part rests below the next offer. -/
theorem uncrossed_of_run_buy :
    let a : Symbol := .assign (bytes "MARAYL")
    let m := toMarketId 1 0
    ∃ app, Run App.step (fun _ op => op.Positive) (App.make 16 16)
        [.createMarket 1 (.assign (bytes "EURUSD")) 0 0 0, .createOrder a m [] .sell 5 100 0 7 0,
          .createOrder a m [] .sell 5 102 0 8 0, .createOrder a m [] .buy 8 101 0 9 0] app ∧
      app.view.best m .buy = some 101 ∧ app.view.best m .sell = some 102 ∧ app.view.Uncrossed := by
  intro a m
  have made : ∃ app ∈ Run.exec App.step (fun _ op => op.Positive) (App.make 16 16)
      [.createMarket 1 (.assign (bytes "EURUSD")) 0 0 0, .createOrder a m [] .sell 5 100 0 7 0,
        .createOrder a m [] .sell 5 102 0 8 0, .createOrder a m [] .buy 8 101 0 9 0],
      app.view.best m .buy = some 101 ∧ app.view.best m .sell = some 102 := by decide
  obtain ⟨app, done, bid, offer⟩ := made
  exact ⟨app, .of_exec done, bid, offer, (uncrossed_of_run (.make 16 16) (fun m s => by cases s <;> rfl) (.of_exec done)).1⟩

end App

end Swirly
