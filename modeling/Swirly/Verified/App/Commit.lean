import Swirly.Verified.App.Ledger
import Swirly.Verified.App.Match

/-!
# The commit phase

`commit_matches` takes each maker, files both trades, and removes makers that are done.  `Committed` says what
one iteration does to the view and `Commits` what the loop does; an invariant that each iteration keeps
follows for the loop by induction on `Commits`.
-/

namespace Swirly

open Function MarketSide

/-- The order `p` of the side has been shrunk, and has left its session if it is done. -/
def View.shrink (v : View) (m : Int) (s : Side) (p : OrderPtr) (h : Heap) (x : MarketSide) : View :=
  if (h.order p).done then (v.setSide m s h x).removeOrder (h.order p).accnt (h.order p) else v.setSide m s h x

section Shrink

variable {v : View} {m : Int} {s : Side} {p : OrderPtr} {h : Heap} {x : MarketSide} {stays : Prop} {o : Order}

@[simp] theorem View.heap_shrink : (v.shrink m s p h x).heap = h := by unfold View.shrink; split <;> rfl
@[simp] theorem View.side_shrink : (v.shrink m s p h x).side = Swirly.setSide v.side m s x := by
  unfold View.shrink; split <;> rfl
@[simp] theorem View.maxId_shrink : (v.shrink m s p h x).maxId = v.maxId := by unfold View.shrink; split <;> rfl
@[simp] theorem View.reports_shrink : (v.shrink m s p h x).reports = v.reports := by unfold View.shrink; split <;> rfl
@[simp] theorem View.trades_shrink : (v.shrink m s p h x).trades = v.trades := by unfold View.shrink; split <;> rfl
@[simp] theorem View.posn_shrink : (v.shrink m s p h x).posn = v.posn := by unfold View.shrink; split <;> rfl
@[simp] theorem View.mq_shrink : (v.shrink m s p h x).mq = v.mq := by unfold View.shrink; split <;> rfl
@[simp] theorem View.terms_shrink : (v.shrink m s p h x).terms = v.terms := by unfold View.shrink; split <;> rfl

/-- What a shrunk order must satisfy: it stays exactly when it has open lots. -/
structure Shrinks (v : View) (m : Int) (s : Side) (p : OrderPtr) (stays : Prop) (o : Order) (h : Heap)
    (x : MarketSide) : Prop where
  member : p ∈ (v.side m s).orders
  shrunk : Shrunk s v.heap (v.side m s) p stays o h x
  same : o.Same (v.heap.order p)
  balance : stays → o.resdLots + o.execLots = o.lots
  stays_iff : stays ↔ o.resdLots ≠ 0

namespace Shrinks

theorem order (shrinks : Shrinks v m s p stays o h x) : ∃ lp, h.order p = { o with level := lp } := shrinks.shrunk.order

theorem done_iff (shrinks : Shrinks v m s p stays o h x) : (h.order p).done = true ↔ ¬ stays := by
  obtain ⟨lp, order⟩ := shrinks.order
  rw [order, shrinks.stays_iff, not_not]
  exact decide_eq_true_iff

theorem same_order (shrinks : Shrinks v m s p stays o h x) : (h.order p).Same (v.heap.order p) := by
  obtain ⟨lp, order⟩ := shrinks.order
  rw [order]
  exact ⟨shrinks.same.accnt, shrinks.same.marketId, shrinks.same.id, shrinks.same.ref, shrinks.same.side,
    shrinks.same.ticks⟩

theorem live (shrinks : Shrinks v m s p stays o h x) (live : v.Live) : (v.shrink m s p h x).Live := by
  obtain ⟨lp, order⟩ := shrinks.order
  unfold View.shrink
  by_cases kept : stays
  · rw [if_neg fun done => shrinks.done_iff.mp done kept]
    refine live.keep shrinks.member shrinks.shrunk.frame shrinks.shrunk.wf (shrinks.shrunk.stay kept).1
      shrinks.same_order ?_ ?_
    · show (h.order p).resdLots ≠ 0
      rw [order]
      exact shrinks.stays_iff.mp kept
    · show (h.order p).resdLots + (h.order p).execLots = (h.order p).lots
      rw [order]
      exact shrinks.balance kept
  · rw [if_pos (shrinks.done_iff.mpr kept), shrinks.same_order.accnt]
    exact live.leave shrinks.member shrinks.shrunk.frame shrinks.shrunk.wf (shrinks.shrunk.leave kept).1
      shrinks.same_order shrinks.same_order

theorem kept (shrinks : Shrinks v m s p stays o h x) (live : v.Live) : Heap.Kept v.heap h where
  live q := by
    cases eq_or_ne q p with
    | inl here => rw [here, shrinks.shrunk.live, live.present shrinks.member]
    | inr differ => rw [shrinks.shrunk.frame.orders q differ]
  same q := by
    cases eq_or_ne q p with
    | inl here => rw [here]; exact shrinks.same_order
    | inr differ => rw [shrinks.shrunk.frame.order differ]; exact .refl _

theorem order_ne (shrinks : Shrinks v m s p stays o h x) {q : OrderPtr} (differ : q ≠ p) :
    h.order q = v.heap.order q := shrinks.shrunk.frame.order differ

/-- The orders listed afterwards: all but `p`, and `p` if it has open lots. -/
theorem mem_orders (shrinks : Shrinks v m s p stays o h x) (live : v.Live) {n : Int} {t : Side} {q : OrderPtr} :
    q ∈ ((v.shrink m s p h x).side n t).orders ↔
      q ∈ (v.side n t).orders ∧ (q = p → o.resdLots ≠ 0) := by
  rw [View.side_shrink, mem_setSide]
  by_cases kept : stays
  · have resdLots := shrinks.stays_iff.mp kept
    rw [(shrinks.shrunk.stay kept).1]
    constructor
    · rintro (⟨⟨rfl, rfl⟩, inside⟩ | ⟨-, inside⟩) <;> exact ⟨inside, fun _ => resdLots⟩
    · intro inside
      exact (Decidable.em (n = m ∧ t = s)).imp (fun here => ⟨here, here.1 ▸ here.2 ▸ inside.1⟩) fun there => ⟨there, inside.1⟩
  · have resdLots : ¬ o.resdLots ≠ 0 := fun nonzero => kept (shrinks.stays_iff.mpr nonzero)
    rw [(shrinks.shrunk.leave kept).1, (live.wf m s).nodup.mem_erase_iff]
    constructor
    · rintro (⟨⟨rfl, rfl⟩, differ, inside⟩ | ⟨there, inside⟩)
      · exact ⟨inside, fun here => absurd here differ⟩
      · exact ⟨inside, fun here => absurd (live.home_unique shrinks.member (here ▸ inside)) there⟩
    · rintro ⟨inside, open_⟩
      have differ : q ≠ p := fun here => resdLots (open_ here)
      exact (Decidable.em (n = m ∧ t = s)).imp (fun here => ⟨here, differ, here.1 ▸ here.2 ▸ inside⟩)
        fun there => ⟨there, inside⟩

/-- What is left is in the sequence that it was in. -/
theorem sublist (shrinks : Shrinks v m s p stays o h x) (n : Int) (t : Side) :
    ((v.shrink m s p h x).side n t).orders.Sublist (v.side n t).orders := by
  rw [View.side_shrink]
  by_cases here : n = m ∧ t = s
  · obtain ⟨rfl, rfl⟩ := here
    rw [setSide_self]
    by_cases kept : stays
    · rw [(shrinks.shrunk.stay kept).1]
    · rw [(shrinks.shrunk.leave kept).1]
      exact List.erase_sublist
  · rw [setSide_other here]

theorem find_orders (shrinks : Shrinks v m s p stays o h x) (live : v.Live) {a : Symbol} {k : IdKey} {q : OrderPtr} :
    ((v.shrink m s p h x).orders a).find k = some q ↔ (v.orders a).find k = some q ∧ (q = p → o.resdLots ≠ 0) := by
  have same := (shrinks.kept live).same q
  rw [(shrinks.live live).find_iff, live.find_iff, shrinks.mem_orders live, View.heap_shrink, same.accnt, same.key,
    same.marketId, same.side]
  tauto

theorem complete (shrinks : Shrinks v m s p stays o h x) (live : v.Live) (complete : v.Complete) :
    (v.shrink m s p h x).Complete := by
  intro q present open_
  rw [View.heap_shrink] at present open_ ⊢
  have kept := shrinks.kept live
  rw [shrinks.mem_orders live, (kept.same q).marketId, (kept.same q).side]
  obtain ⟨lp, order⟩ := shrinks.order
  cases eq_or_ne q p with
  | inl here =>
    subst here
    rw [order] at open_
    refine ⟨?_, fun _ => open_⟩
    rw [(live.home shrinks.member).1, (live.home shrinks.member).2]
    exact shrinks.member
  | inr differ =>
    rw [shrinks.order_ne differ] at open_
    rw [kept.live] at present
    exact ⟨complete q present open_, fun here => absurd here differ⟩

end Shrinks

end Shrink

/-- A maker that gives no more than its open lots. -/
theorem Live.shrinks_take {v : View} {m now lots : Int} {s : Side} {p : OrderPtr} {h : Heap} {x : MarketSide} (live : v.Live)
    (member : p ∈ (v.side m s).orders) (enough : lots ≤ (v.heap.order p).resdLots)
    (shrunk : Shrunk s v.heap (v.side m s) p (lots < (v.heap.order p).resdLots)
      ((v.heap.order p).trade lots (v.heap.order p).ticks now) h x) :
    Shrinks v m s p (lots < (v.heap.order p).resdLots) ((v.heap.order p).trade lots (v.heap.order p).ticks now) h x where
  member := member
  shrunk := shrunk
  same := ⟨rfl, rfl, rfl, rfl, rfl, rfl⟩
  balance _ := by
    have balance := live.balance m s _ member
    simp only [Order.trade, Order.tradeSum]
    omega
  stays_iff := by
    simp only [Order.trade, Order.tradeSum]
    omega

/-- One iteration of `commit_matches`. -/
structure Taken (takerAccnt : Symbol) (m : Int) (s : Side) (now : Int) (x : Match) (v v' : View) : Prop where
  step : ∃ h side, x.makerOrder ∈ (v.side m s).orders ∧
    Shrunk s v.heap (v.side m s) x.makerOrder (x.lots < (v.heap.order x.makerOrder).resdLots)
      ((v.heap.order x.makerOrder).trade x.lots (v.heap.order x.makerOrder).ticks now) h side ∧
    v' = (((v.shrink m s x.makerOrder h side).setLast m x.lots (v.heap.order x.makerOrder).ticks now).fileTrade
      (v.heap.order x.makerOrder).accnt m x.makerTrade).fileTrade takerAccnt m x.takerTrade

/-- An iteration that keeps the orders of the view together. -/
structure Committed (takerAccnt : Symbol) (m : Int) (s : Side) (now : Int) (x : Match) (v v' : View) : Prop where
  live : v.Live
  step : ∃ h side,
    Shrinks v m s x.makerOrder (x.lots < (v.heap.order x.makerOrder).resdLots)
      ((v.heap.order x.makerOrder).trade x.lots (v.heap.order x.makerOrder).ticks now) h side ∧
    v' = (((v.shrink m s x.makerOrder h side).setLast m x.lots (v.heap.order x.makerOrder).ticks now).fileTrade
      (v.heap.order x.makerOrder).accnt m x.makerTrade).fileTrade takerAccnt m x.takerTrade

/-- The loop of `commit_matches`. -/
inductive Commits (takerAccnt : Symbol) (m : Int) (s : Side) (now : Int) : List Match → View → View → Prop
  | nil {v : View} : Commits takerAccnt m s now [] v v
  | cons {x : Match} {xs : List Match} {v v' v'' : View} (first : Committed takerAccnt m s now x v v')
      (rest : Commits takerAccnt m s now xs v' v'') : Commits takerAccnt m s now (x :: xs) v v''

namespace Committed

variable {takerAccnt : Symbol} {m now : Int} {s : Side} {x : Match} {v v' : View}

theorem next (committed : Committed takerAccnt m s now x v v') : v'.Live := by
  obtain ⟨live, h, side, shrinks, rfl⟩ := committed
  simpa using shrinks.live live

theorem complete (committed : Committed takerAccnt m s now x v v') (complete : v.Complete) : v'.Complete := by
  obtain ⟨live, h, side, shrinks, rfl⟩ := committed
  simpa using shrinks.complete live complete

theorem kept (committed : Committed takerAccnt m s now x v v') : Heap.Kept v.heap v'.heap := by
  obtain ⟨live, h, side, shrinks, rfl⟩ := committed
  simpa using shrinks.kept live

theorem maxId (committed : Committed takerAccnt m s now x v v') : v'.maxId = v.maxId := by
  obtain ⟨-, h, side, -, rfl⟩ := committed
  simp

theorem mq (committed : Committed takerAccnt m s now x v v') : v'.mq = v.mq := by
  obtain ⟨-, h, side, -, rfl⟩ := committed
  simp

theorem reports (committed : Committed takerAccnt m s now x v v') : v'.reports = v.reports := by
  obtain ⟨-, h, side, -, rfl⟩ := committed
  simp

theorem order_ne (committed : Committed takerAccnt m s now x v v') {q : OrderPtr} (differ : q ≠ x.makerOrder) :
    v'.heap.order q = v.heap.order q := by
  obtain ⟨-, h, side, shrinks, rfl⟩ := committed
  simpa using shrinks.order_ne differ

/-- The maker's open lots go down by the lots of the match. -/
theorem order (committed : Committed takerAccnt m s now x v v') :
    ∃ level, v'.heap.order x.makerOrder =
      { (v.heap.order x.makerOrder).trade x.lots (v.heap.order x.makerOrder).ticks now with level } := by
  obtain ⟨-, h, side, shrinks, rfl⟩ := committed
  simpa using shrinks.order

theorem sublist (committed : Committed takerAccnt m s now x v v') (n : Int) (t : Side) :
    (v'.side n t).orders.Sublist (v.side n t).orders := by
  obtain ⟨-, h, side, shrinks, rfl⟩ := committed
  simpa using shrinks.sublist n t

/-- The maker stays in the book exactly when it has open lots. -/
theorem mem_orders (committed : Committed takerAccnt m s now x v v') {n : Int} {t : Side} {q : OrderPtr} :
    q ∈ (v'.side n t).orders ↔
      q ∈ (v.side n t).orders ∧ (q = x.makerOrder → (v.heap.order q).resdLots ≠ x.lots) := by
  obtain ⟨live, h, side, shrinks, rfl⟩ := committed
  have listed := shrinks.mem_orders live (n := n) (t := t) (q := q)
  simp only [View.side_fileTrade, View.side_setLast]
  rw [listed]
  refine and_congr_right fun _ => forall_congr' fun here => not_congr ?_
  rw [← here]
  exact Int.sub_eq_zero

end Committed

namespace Commits

variable {takerAccnt : Symbol} {m now : Int} {s : Side} {xs : List Match} {v v' : View}

theorem next (commits : Commits takerAccnt m s now xs v v') (live : v.Live) : v'.Live := by
  induction commits with
  | nil => exact live
  | cons first _ inductionHypothesis => exact inductionHypothesis first.next

theorem complete (commits : Commits takerAccnt m s now xs v v') (complete : v.Complete) : v'.Complete := by
  induction commits with
  | nil => exact complete
  | cons first _ inductionHypothesis => exact inductionHypothesis (first.complete complete)

theorem kept (commits : Commits takerAccnt m s now xs v v') : Heap.Kept v.heap v'.heap := by
  induction commits with
  | nil => exact .refl _
  | cons first _ inductionHypothesis => exact first.kept.trans inductionHypothesis

theorem maxId (commits : Commits takerAccnt m s now xs v v') : v'.maxId = v.maxId := by
  induction commits with
  | nil => rfl
  | cons first _ inductionHypothesis => exact inductionHypothesis.trans first.maxId

theorem mq (commits : Commits takerAccnt m s now xs v v') : v'.mq = v.mq := by
  induction commits with
  | nil => rfl
  | cons first _ inductionHypothesis => exact inductionHypothesis.trans first.mq

theorem reports (commits : Commits takerAccnt m s now xs v v') : v'.reports = v.reports := by
  induction commits with
  | nil => rfl
  | cons first _ inductionHypothesis => exact inductionHypothesis.trans first.reports

theorem order_ne (commits : Commits takerAccnt m s now xs v v') {q : OrderPtr} (differ : q ∉ xs.map Match.makerOrder) :
    v'.heap.order q = v.heap.order q := by
  induction commits with
  | nil => rfl
  | cons first _ inductionHypothesis =>
    obtain ⟨differFirst, differ⟩ := not_or.mp (mt List.mem_cons.mpr differ)
    exact (inductionHypothesis differ).trans (first.order_ne differFirst)

/-- Every maker has traded the lots of its match, and nothing else. -/
theorem order (commits : Commits takerAccnt m s now xs v v') (nodup : (xs.map Match.makerOrder).Nodup) {x : Match}
    (member : x ∈ xs) :
    ∃ level, v'.heap.order x.makerOrder =
      { (v.heap.order x.makerOrder).trade x.lots (v.heap.order x.makerOrder).ticks now with level } := by
  induction commits with
  | nil => cases member
  | @cons y ys v _ _ first rest inductionHypothesis =>
    obtain ⟨differ, nodup⟩ := List.nodup_cons.mp nodup
    cases List.mem_cons.mp member with
    | inl here =>
      rw [here, order_ne rest differ]
      exact first.order
    | inr later =>
      have other : x.makerOrder ≠ y.makerOrder := fun same => differ (same ▸ List.mem_map_of_mem later)
      rw [← first.order_ne other]
      exact inductionHypothesis nodup later

theorem sublist (commits : Commits takerAccnt m s now xs v v') (n : Int) (t : Side) :
    (v'.side n t).orders.Sublist (v.side n t).orders := by
  induction commits with
  | nil => exact .refl _
  | cons first _ inductionHypothesis => exact inductionHypothesis.trans (first.sublist n t)

/-- The makers that are left in the book are those with open lots. -/
theorem mem_orders (commits : Commits takerAccnt m s now xs v v') (nodup : (xs.map Match.makerOrder).Nodup) {n : Int}
    {t : Side} {q : OrderPtr} :
    q ∈ (v'.side n t).orders ↔
      q ∈ (v.side n t).orders ∧ ∀ x ∈ xs, q = x.makerOrder → (v.heap.order q).resdLots ≠ x.lots := by
  induction commits with
  | nil => simp
  | @cons y ys v _ _ first rest inductionHypothesis =>
    obtain ⟨differ, nodup⟩ := List.nodup_cons.mp nodup
    rw [inductionHypothesis nodup, first.mem_orders, List.forall_mem_cons, and_assoc]
    refine and_congr_right fun _ => and_congr_right fun _ => forall₂_congr fun x member => forall_congr' fun here => ?_
    have other : q ≠ y.makerOrder := fun same => differ (same ▸ here ▸ List.mem_map_of_mem member)
    rw [first.order_ne other]

end Commits

namespace App

variable {app app' : App} {takerAccnt : Symbol} {m now : Int} {s : Side}

/-- What `commit_matches` relies on: the makers are still in the book as the match phase found them. -/
structure Ready (app : App) (m : Int) (s : Side) (xs : List Match) : Prop where
  nodup : (xs.map Match.makerOrder).Nodup
  listed : ∀ x ∈ xs, x.makerOrder ∈ (app.view.side m s).orders
  lots : ∀ x ∈ xs, x.lots ≤ (app.order x.makerOrder).resdLots
  posn : ∀ x ∈ xs, x.makerPosn = ((app.order x.makerOrder).accnt, m)
  makerTrade : ∀ x ∈ xs, (app.execs.find x.makerTrade).isSome
  takerTrade : ∀ x ∈ xs, (app.execs.find x.takerTrade).isSome

theorem onMarket_takeOrder {p : OrderPtr} {lots : Int} {h : Heap} {x : MarketSide} (ownSide : (app.order p).side = s)
    (taken : (app.view.side m s).takeOrder app.heap p lots now = some (h, x)) :
    ∃ app', (app.onMarket m fun h k => k.takeOrder h p lots now) = some app' ∧
      app'.view = (app.view.setSide m s h x).setLast m lots (h.order p).ticks now ∧
      app'.sesss = app.sesss ∧ app'.execs = app.execs ∧ app'.heap = h ∧ app'.matches_ = app.matches_ ∧
      app'.execs_ = app.execs_ := by
  refine ⟨{ app with heap := h }.setMarket m { (app.market m).setSide s x with
    lastLots := lots, lastTicks := (h.order p).ticks, lastTime := now }, ?_, ?_, rfl, rfl, rfl, rfl, rfl⟩
  · simp only [onMarket, Market.takeOrder, Market.onSide]
    rw [show (app.heap.order p).side = s from ownSide, show ((app.market m).side s).takeOrder app.heap p lots now = _ from taken]
    rfl
  · rw [← view_setSide, ← view_setLast]
    simp only [setMarket, market, OrdMap.put_put, OrdMap.get_put_self]

/-- The trades of a match are filed one after the other, the maker's first. -/
def bookMatch (takerAccnt : Symbol) (m : Int) (l : Ledger) (x : Match) : Ledger :=
  (l.book x.makerPosn.1 m x.makerTrade).book takerAccnt m x.takerTrade

/-- One iteration, for a side that is in order. -/
theorem commitMatch_taken (takerAccnt : Symbol) (now : Int) {x : Match} (wf : WF s app.heap (app.view.side m s))
    (member : x.makerOrder ∈ (app.view.side m s).orders) (posn : x.makerPosn = ((app.order x.makerOrder).accnt, m))
    (makerTrade : (app.execs.find x.makerTrade).isSome) (takerTrade : (app.execs.find x.takerTrade).isSome)
    (known : (app.sesss.find (app.order x.makerOrder).accnt).isSome) :
    ∃ app', app.commitMatch takerAccnt m now x = some app' ∧ Taken takerAccnt m s now x app.view app'.view ∧
      (∀ e, (app'.execs.find e).isSome = (app.execs.find e).isSome) ∧ app'.ledger = bookMatch takerAccnt m app.ledger x := by
  have ownSide : (app.order x.makerOrder).side = s := wf.orderSide _ member
  obtain ⟨h, side, taken, shrunk⟩ := takeOrder_spec wf member x.lots now
  obtain ⟨app₁, first, view₁, sesss₁, execs₁, heap₁, -, -⟩ := onMarket_takeOrder ownSide taken
  obtain ⟨level, after⟩ := shrunk.order
  have maker₁ : app₁.order x.makerOrder = h.order x.makerOrder := by simp only [order, heap₁]
  have accnt : (h.order x.makerOrder).accnt = (app.view.heap.order x.makerOrder).accnt := by rw [after]; rfl
  have ticks : (h.order x.makerOrder).ticks = (app.view.heap.order x.makerOrder).ticks := by rw [after]; rfl
  have known₁ : (app₁.sesss.find (app₁.order x.makerOrder).accnt).isSome := by
    rw [maker₁, accnt, sesss₁]
    exact known
  obtain ⟨sess, found⟩ := Option.isSome_iff_exists.mp known₁
  obtain ⟨app₂, second⟩ : ∃ app₂, app₂ =
      (app₁.stampPosn x.makerTrade x.makerPosn).fileTrade (app₁.order x.makerOrder).accnt x.makerPosn.2 x.makerTrade :=
    ⟨_, rfl⟩
  obtain ⟨app₃, third⟩ : ∃ app₃, app₃ =
      if (app₁.order x.makerOrder).done then
        app₂.setSess (app₁.order x.makerOrder).accnt
          ((app₂.sess (app₁.order x.makerOrder).accnt).removeOrder (app₁.order x.makerOrder))
      else app₂ := ⟨_, rfl⟩
  have made₁ : (app₁.execs.find x.makerTrade).isSome := by rw [execs₁]; exact makerTrade
  have present₂ : ∀ e, (app₂.execs.find e).isSome = (app.execs.find e).isSome := by
    intro e
    rw [second, ← execs₁]
    exact find_stampPosn made₁ _ e
  have present₃ : ∀ e, (app₃.execs.find e).isSome = (app.execs.find e).isSome := by
    intro e
    rw [← present₂, third]
    split <;> rfl
  have taker₃ : (app₃.execs.find x.takerTrade).isSome := by rw [present₃]; exact takerTrade
  have view₂ : app₂.view = app₁.view.fileTrade (app₁.order x.makerOrder).accnt m x.makerTrade := by
    rw [second, view_fileTrade, view_stampPosn made₁, posn]
  have view₃ : app₃.view = ((app.view.shrink m s x.makerOrder h side).setLast m x.lots
      (app.view.heap.order x.makerOrder).ticks now).fileTrade (app.view.heap.order x.makerOrder).accnt m x.makerTrade := by
    rw [third, maker₁, View.shrink, ← accnt, ← ticks]
    split
    next =>
      rw [view_removeOrder, view₂, view₁, maker₁]
      rfl
    next => rw [view₂, view₁, maker₁]
  have ledger₁ : app₁.ledger = app.ledger := ledger_setSide_setLast view₁ execs₁
  have ledger₂ : app₂.ledger = app.ledger.book x.makerPosn.1 m x.makerTrade := by
    rw [second, ledger_fileTrade, Ledger.book, ← ledger₁, posn, ← ledger_stampPosn, maker₁, accnt]
    rfl
  have ledger₃ : app₃.ledger = app.ledger.book x.makerPosn.1 m x.makerTrade := by
    rw [third, ← ledger₂]
    split
    next => exact ledger_removeOrder _ _
    next => rfl
  refine ⟨(app₃.stampPosn x.takerTrade (takerAccnt, m)).fileTrade takerAccnt m x.takerTrade, ?_, ?_, ?_, ?_⟩
  · simp only [commitMatch, first]
    rw [found]
    simp only [third, second]
  · refine ⟨h, side, member, shrunk, ?_⟩
    rw [view_fileTrade, view_stampPosn taker₃, view₃]
  · intro e
    rw [← present₃]
    exact find_stampPosn taker₃ _ e
  · rw [ledger_fileTrade, ledger_stampPosn, ledger₃]
    rfl

theorem commitMatch_spec (takerAccnt : Symbol) (now : Int) {x : Match} (live : app.view.Live) (member : x.makerOrder ∈ (app.view.side m s).orders)
    (lots : x.lots ≤ (app.order x.makerOrder).resdLots) (posn : x.makerPosn = ((app.order x.makerOrder).accnt, m))
    (makerTrade : (app.execs.find x.makerTrade).isSome) (takerTrade : (app.execs.find x.takerTrade).isSome) :
    ∃ app', app.commitMatch takerAccnt m now x = some app' ∧ Committed takerAccnt m s now x app.view app'.view ∧
      (∀ e, (app'.execs.find e).isSome = (app.execs.find e).isSome) ∧ app'.ledger = bookMatch takerAccnt m app.ledger x := by
  obtain ⟨app', done, ⟨h, side, -, shrunk, view⟩, present, ledger⟩ := commitMatch_taken takerAccnt now (live.wf m s) member posn
    makerTrade takerTrade (live.known member)
  exact ⟨app', done, ⟨live, h, side, live.shrinks_take member lots shrunk, view⟩, present, ledger⟩

/-- What is left of the matches is still as the match phase found it. -/
theorem Ready.next {x : Match} {xs : List Match} (ready : Ready app m s (x :: xs))
    (committed : Committed takerAccnt m s now x app.view app'.view)
    (present : ∀ e, (app'.execs.find e).isSome = (app.execs.find e).isSome) : Ready app' m s xs := by
  obtain ⟨live, h, side, shrinks, view⟩ := committed
  obtain ⟨different, nodup⟩ := List.nodup_cons.mp ready.nodup
  have heap : app'.heap = h := by
    have heap := congrArg View.heap view
    simp only [View.heap_fileTrade, View.heap_setLast, View.heap_shrink] at heap
    exact heap
  have order : ∀ y ∈ xs, app'.order y.makerOrder = app.order y.makerOrder := by
    intro y member
    simp only [order, heap]
    exact shrinks.order_ne fun same => different (same ▸ List.mem_map_of_mem member)
  exact
    { nodup
      listed := fun y member => by
        have listed : y.makerOrder ∈ ((app.view.shrink m s x.makerOrder h side).side m s).orders := by
          rw [shrinks.mem_orders live]
          exact ⟨ready.listed y (List.mem_cons_of_mem _ member),
            fun same => absurd (same ▸ List.mem_map_of_mem member) different⟩
        rw [view]
        simpa using listed
      lots := fun y member => by rw [order y member]; exact ready.lots y (List.mem_cons_of_mem _ member)
      posn := fun y member => by rw [order y member]; exact ready.posn y (List.mem_cons_of_mem _ member)
      makerTrade := fun y member => by rw [present]; exact ready.makerTrade y (List.mem_cons_of_mem _ member)
      takerTrade := fun y member => by rw [present]; exact ready.takerTrade y (List.mem_cons_of_mem _ member) }

/-- The commit phase does not miss a lookup. -/
theorem commitAll_spec (takerAccnt : Symbol) (now : Int) (live : app.view.Live) (xs : List Match) (ready : Ready app m s xs) :
    ∃ app', xs.foldlM (fun app x => app.commitMatch takerAccnt m now x) app = some app' ∧
      Commits takerAccnt m s now xs app.view app'.view ∧ app'.ledger = xs.foldl (bookMatch takerAccnt m) app.ledger := by
  induction xs generalizing app with
  | nil => exact ⟨app, rfl, .nil, rfl⟩
  | cons x xs inductionHypothesis =>
    obtain ⟨next, done, committed, present, booked⟩ := commitMatch_spec takerAccnt now live
      (ready.listed x List.mem_cons_self) (ready.lots x List.mem_cons_self) (ready.posn x List.mem_cons_self)
      (ready.makerTrade x List.mem_cons_self) (ready.takerTrade x List.mem_cons_self)
    obtain ⟨app', rest, commits, ledger⟩ := inductionHypothesis committed.next (ready.next committed present)
    rw [booked] at ledger
    exact ⟨app', by rw [List.foldlM_cons, done]; exact rest, .cons committed commits, ledger⟩

end App

end Swirly
