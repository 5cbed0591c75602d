import Swirly.Verified.App.Commit
import Swirly.Verified.Side.Undo

/-!
# Creating an order

What a call of `create_order` comes to, from any state that satisfies `App.Inv` (`createOrder_spec`).  It throws and leaves the view
as it was, apart from the ids given out, or it commits: the state at the start of the commit loop is `Opened`, and the loop
`Commits` the matches.  These are the cases of `Created`, and none of them is a fault.
-/

namespace Swirly

open Function MarketSide

/-- What holds between calls in every state that the engine can reach. -/
structure App.Inv (app : App) : Prop where
  live : app.view.Live
  complete : app.view.Complete
  ids : app.view.Ids
  matches_ : app.matches_ = []
  execs_ : app.execs_ = []

namespace App

variable {app app' : App} {a : Symbol} {m : Int} {ref : Bytes} {side : Side} {lots ticks minLots now busDay : Int}

/-- The order that a call makes. -/
def incoming (app : App) (a : Symbol) (m : Int) (ref : Bytes) (side : Side) (lots ticks minLots now : Int) : Order :=
  .make a m (app.market m).instr (app.market m).settlDay ((app.market m).maxId + 1) ref side lots ticks minLots now

/-- The fills of an incoming order, before anything is made for it. -/
def incomingFills (app : App) (m : Int) (o : Order) : List Fill :=
  fillsOf app.heap (app.makers m o) o (app.view.maxId m + 1) (app.execs.fresh + 1)

section Filled

variable {o : Order} {fs : List Fill}

theorem filled_eq (o : Order) (now : Int) (fs : List Fill) :
    ∃ sumLots sumCost lastLots lastTicks state modified,
      filled o now fs = { o with
        state, resdLots := o.resdLots - sumLots, execLots := o.execLots + sumLots, execCost := o.execCost + sumCost,
        lastLots, lastTicks, modified } := by
  cases fs with
  | nil => exact ⟨0, 0, o.lastLots, o.lastTicks, o.state, o.modified, by simp [filled]⟩
  | cons f fs => exact ⟨_, _, _, _, .trade, now, rfl⟩

theorem filled_same : (filled o now fs).Same o := by
  obtain ⟨sumLots, sumCost, lastLots, lastTicks, state, modified, after⟩ := filled_eq o now fs
  rw [after]
  exact ⟨rfl, rfl, rfl, rfl, rfl, rfl⟩

theorem filled_level : (filled o now fs).level = o.level := by
  obtain ⟨sumLots, sumCost, lastLots, lastTicks, state, modified, after⟩ := filled_eq o now fs
  rw [after]

theorem filled_balance (balance : o.resdLots + o.execLots = o.lots) :
    (filled o now fs).resdLots + (filled o now fs).execLots = (filled o now fs).lots := by
  obtain ⟨sumLots, sumCost, lastLots, lastTicks, state, modified, after⟩ := filled_eq o now fs
  rw [after]
  show o.resdLots - sumLots + (o.execLots + sumLots) = o.lots
  omega

end Filled

/-- The state before the order is placed in the market. -/
structure Staged (app : App) (m : Int) (o : Order) (now : Int) (fs : List Fill) (app' : App) : Prop where
  view : app'.view = { app.view with
    heap := app.heap.newOrder (filled o now fs)
    maxId := update app.view.maxId m (app.view.maxId m + 1 + 2 * fs.length)
    reports := app.view.reports.allocs (Exec.make o o.id now :: fs.flatMap (Fill.execs app.heap o now)) }
  execs : app'.execs = app.execs.allocs (Exec.make o o.id now :: fs.flatMap (Fill.execs app.heap o now))
  matches_ : app'.matches_ = fs.map fun f => f.toMatch app.heap m
  execs_ : app'.execs_ = (List.range (1 + 2 * fs.length)).map (app.execs.fresh + ·)

theorem place_spec (clear : app.matches_ = [] ∧ app.execs_ = []) {o : Order} (incoming : o = app.incoming a m ref side lots ticks minLots now) :
    ∃ app₁, app.place a m ref side lots ticks minLots now = (app.heap.orders.fresh, app.execs.fresh, app₁) ∧
      app₁.view = ((app.view.allocId m).newOrder o).newExec (.make o o.id now) ∧
      app₁.execs = app.execs.alloc (.make o o.id now) ∧ app₁.matches_ = [] ∧ app₁.execs_ = [app.execs.fresh] := by
  subst incoming
  refine ⟨_, rfl, ?_, rfl, clear.1, ?_⟩
  · rw [← view_allocId, ← view_newOrder, ← view_newExec]
    rfl
  · show app.execs_ ++ [_] = _
    rw [clear.2]
    rfl

/-- The match phase of the call. -/
theorem staged {app₁ : App} {o : Order} (booked : ∀ q ∈ app.makers m o, (app.heap.orders.find q).isSome)
    (view₁ : app₁.view = ((app.view.allocId m).newOrder o).newExec (.make o o.id now))
    (execs₁ : app₁.execs = app.execs.alloc (.make o o.id now)) (matches₁ : app₁.matches_ = [])
    (pointers₁ : app₁.execs_ = [app.execs.fresh])
    (known : ∀ f ∈ app.incomingFills m o, (app₁.sesss.find (app.order f.maker).accnt).isSome) (resp : Response) :
    ∃ app₂ resp₂, app₁.matchOrders a m app.heap.orders.fresh now resp = some (app₂, resp₂) ∧
      Staged app m o now (app.incomingFills m o) app₂ ∧
      resp₂ = (app.incomingFills m o).foldl (fun resp f => f.respond app.heap a resp) resp := by
  have heap₁ : app₁.heap = (app.heap.newOrder o) := congrArg View.heap view₁
  have order₁ : app₁.order app.heap.orders.fresh = o := by
    rw [order, heap₁]
    exact OrdMap.get_put_self _ _ _
  have maxId₁ : app₁.view.maxId = update app.view.maxId m (app.view.maxId m + 1) := congrArg View.maxId view₁
  have present₁ : (app₁.heap.orders.find app.heap.orders.fresh).isSome := by
    rw [heap₁, Heap.find_newOrder, if_pos rfl]
    rfl
  have makers₁ : app₁.makers m o = app.makers m o := by
    simp only [makers, view₁]
    rfl
  -- The new order is not among the makers, so they are as they were.
  have agree : ∀ q ∈ app.makers m o, app₁.heap.order q = app.heap.order q := by
    intro q member
    rw [heap₁]
    exact Heap.order_newOrder_ne _ _ (OrdMap.ne_fresh (booked q member))
  have fills₁ : app₁.fills m o = app.incomingFills m o := by
    rw [fills, incomingFills, makers₁, fillsOf_congr agree, maxId₁, update_self, execs₁, OrdMap.fresh_alloc]
  have execs : (app.incomingFills m o).flatMap (Fill.execs app₁.heap o now) =
      (app.incomingFills m o).flatMap (Fill.execs app.heap o now) :=
    List.flatMap_congr fun f member => Fill.execs_congr (agree _ (mem_fillsOf member).1)
  obtain ⟨app₂, resp₂, matched, view₂, execs₂, matches₂, pointers₂, response⟩ :=
    matchOrders_spec a m now matches₁ present₁
      (by
        rw [order₁, fills₁]
        intro f member
        rw [App.order, agree _ (mem_fillsOf member).1]
        exact known f member) resp
  rw [order₁, fills₁, execs] at view₂ execs₂
  rw [order₁, fills₁] at matches₂ pointers₂ response
  have told : resp₂ = (app.incomingFills m o).foldl (fun resp f => f.respond app.heap a resp) resp :=
    response.trans (List.foldl_ext _ _ _ fun resp f member =>
      congrFun (Fill.respond_congr (agree _ (mem_fillsOf member).1)) resp)
  refine ⟨app₂, resp₂, matched, ⟨?_, ?_, ?_, ?_⟩, told⟩
  · rw [view₂, maxId₁, heap₁, view₁]
    simp only [View.newExec, View.newOrder, View.allocId, update_self, update_idem, Heap.setOrder_newOrder]
    rfl
  · rw [execs₂, execs₁]
    rfl
  · rw [matches₂]
    exact List.map_congr_left fun f member => Fill.toMatch_congr (agree _ (mem_fillsOf member).1)
  · rw [pointers₂, pointers₁, incomingFills, fillsOf_trades, List.range_add, List.map_append, List.map_map]
    congr 1
    exact List.map_congr_left fun i _ => Nat.add_assoc _ 1 i

/-- The order index with the new order, if that is still open. -/
def openedOrders (app : App) (a : Symbol) (o : Order) (now : Int) (fs : List Fill) : Symbol → OrdMap IdKey OrderPtr :=
  if (filled o now fs).done then app.view.orders
  else update app.view.orders a ((app.view.orders a).insert o.key app.heap.orders.fresh)

/-- The reference index with the new order, if that is still open and has a reference. -/
def openedRefs (app : App) (a : Symbol) (o : Order) (now : Int) (fs : List Fill) : Symbol → OrdMap Bytes OrderPtr :=
  if (filled o now fs).done ∨ o.ref.isEmpty then app.view.refs
  else update app.view.refs a ((app.view.refs a).insert o.ref.data app.heap.orders.fresh)

/-- The heap and the sides once the new order rests in the book, if it is still open. -/
structure Placed (app : App) (a : Symbol) (m : Int) (o : Order) (now : Int) (fs : List Fill) (h : Heap)
    (side : Int → Side → MarketSide) : Prop where
  live : Live h side (openedOrders app a o now fs) (openedRefs app a o now fs)
  complete : Complete h side
  kept : Heap.Kept (app.heap.newOrder o) h
  order : ∃ lp, h.order app.heap.orders.fresh = { filled o now fs with level := lp }
  others : ∀ q, q ≠ app.heap.orders.fresh → h.orders.find q = app.heap.orders.find q
  listed : ∀ n t q, q ∈ (side n t).orders ↔ q ∈ (app.view.side n t).orders ∨
    (q = app.heap.orders.fresh ∧ n = m ∧ t = o.side ∧ (filled o now fs).resdLots ≠ 0)
  untouched : ∀ n t, ¬ (n = m ∧ t = o.side) → side n t = app.view.side n t
  arranged : (side m o.side).orders = (app.view.side m o.side).orders ∨
    (side m o.side).orders =
      ordersWith (app.heap.newOrder (filled o now fs)) (app.view.side m o.side) app.heap.orders.fresh

/-- The other orders are as they were. -/
theorem Placed.order_ne {o : Order} {fs : List Fill} {h : Heap} {side : Int → Side → MarketSide}
    (placed : Placed app a m o now fs h side) {q : OrderPtr} (differ : q ≠ app.heap.orders.fresh) :
    h.order q = app.heap.order q := by
  simp only [Heap.order, OrdMap.get, placed.others q differ]

/-- The state at the start of the commit loop. -/
structure Opened (app : App) (a : Symbol) (m : Int) (o : Order) (now : Int) (fs : List Fill) (v : View) : Prop where
  placed : Placed app a m o now fs v.heap v.side
  journal : app.mq.createExecs (Exec.make o o.id now :: fs.flatMap (Fill.execs app.heap o now)) = some v.mq
  view : v = { app.view with
    mq := v.mq
    heap := v.heap
    side := v.side
    maxId := update app.view.maxId m (app.view.maxId m + 1 + 2 * fs.length)
    reports := app.view.reports.allocs (Exec.make o o.id now :: fs.flatMap (Fill.execs app.heap o now))
    orders := openedOrders app a o now fs
    refs := openedRefs app a o now fs
    history := update app.view.history a ((app.execs.fresh :: app.view.history a).take app.view.maxExecs) }

/-- What the phases of the call need to know of the new order. -/
structure New (app : App) (a : Symbol) (m : Int) (o : Order) : Prop where
  accnt : o.accnt = a
  marketId : o.marketId = m
  id : o.id = app.view.maxId m + 1
  unlinked : o.level = none
  balance : o.resdLots + o.execLots = o.lots

theorem incoming_new : New app a m (app.incoming a m ref side lots ticks minLots now) where
  accnt := rfl
  marketId := rfl
  id := rfl
  unlinked := rfl
  balance := Int.add_zero _

section Place

variable {o : Order} {fs : List Fill}

/-- The id of the new order is not in use. -/
theorem New.absent (new : New app a m o) (inv : app.Inv) : (app.view.orders a).find o.key = none := by
  cases found : (app.view.orders a).find o.key with
  | none => rfl
  | some q =>
    obtain ⟨-, key, listed⟩ := inv.live.booked a o.key q found
    obtain ⟨market, id⟩ := idKey_inj.mp key
    have bounded := inv.ids.bounded q (inv.live.present listed)
    rw [market, new.marketId] at bounded
    have last := new.id
    omega

theorem kept_filled (app : App) (o : Order) (now : Int) (fs : List Fill) :
    Heap.Kept (app.heap.newOrder o) (app.heap.newOrder (filled o now fs)) where
  live q := by
    rw [Heap.find_newOrder, Heap.find_newOrder]
    split <;> rfl
  same q := by
    cases eq_or_ne q app.heap.orders.fresh with
    | inl here =>
      rw [here, Heap.order_newOrder_self, Heap.order_newOrder_self]
      exact filled_same
    | inr differ =>
      rw [Heap.order_newOrder_ne _ _ differ, Heap.order_newOrder_ne _ _ differ]
      exact .refl _

/-- An order that is filled at once is not in the book. -/
theorem Placed.done (inv : app.Inv) (done : (filled o now fs).done) :
    Placed app a m o now fs (app.heap.newOrder (filled o now fs)) app.view.side := by
  have own : (app.heap.newOrder (filled o now fs)).order app.heap.orders.fresh = filled o now fs :=
    Heap.order_newOrder_self _ _
  have other : ∀ q, q ≠ app.heap.orders.fresh →
      (app.heap.newOrder (filled o now fs)).orders.find q = app.heap.orders.find q :=
    fun q differ => OrdMap.find_put_ne _ _ differ
  have resdLots : (filled o now fs).resdLots = 0 := of_decide_eq_true done
  exact
    { live := by
        rw [openedOrders, if_pos done, openedRefs, if_pos (.inl done)]
        exact inv.live.newOrder _
      complete := fun q present open_ => by
        cases eq_or_ne q app.heap.orders.fresh with
        | inl here => rw [here, own] at open_; exact absurd resdLots open_
        | inr differ =>
          have same : (app.heap.newOrder (filled o now fs)).order q = app.heap.order q :=
            Heap.order_newOrder_ne _ _ differ
          rw [other q differ] at present
          rw [same] at open_ ⊢
          exact inv.complete q present open_
      kept := kept_filled app o now fs
      order := ⟨_, own⟩
      others := other
      listed := fun n t q => ⟨.inl, fun either => either.resolve_right fun here => here.2.2.2 resdLots⟩
      untouched := fun _ _ _ => rfl
      arranged := .inl rfl }

/-- An order with open lots rests in the book. -/
theorem Placed.rests (inv : app.Inv) (new : New app a m o) (notDone : ¬ (filled o now fs).done) {h : Heap}
    {x : MarketSide} {lp : LevelPtr}
    (wf : WF o.side h x)
    (orders : x.orders = ordersWith (app.heap.newOrder (filled o now fs))
      (app.view.side m o.side) app.heap.orders.fresh)
    (order : h.order app.heap.orders.fresh = { filled o now fs with level := some lp })
    (present : (h.orders.find app.heap.orders.fresh).isSome)
    (frame : Heap.Frame (app.heap.newOrder (filled o now fs)) h
      (· = app.heap.orders.fresh) (app.view.side m o.side).HasLevel) :
    Placed app a m o now fs h (setSide app.view.side m o.side x) := by
  have own : (app.heap.newOrder (filled o now fs)).order app.heap.orders.fresh = filled o now fs :=
    Heap.order_newOrder_self _ _
  have same : (filled o now fs).Same o := filled_same
  have live : Live (app.heap.newOrder (filled o now fs)) app.view.side app.view.orders app.view.refs :=
    inv.live.newOrder _
  have outside : ∀ n t, app.heap.orders.fresh ∉ (app.view.side n t).orders :=
    fun n t member => OrdMap.ne_fresh (inv.live.present member) rfl
  have resdLots : (filled o now fs).resdLots ≠ 0 := fun zero => notDone (decide_eq_true zero)
  have afterwards : (h.order app.heap.orders.fresh).Same (filled o now fs) := by
    rw [order]
    exact ⟨rfl, rfl, rfl, rfl, rfl, rfl⟩
  have listed : ∀ n t q, q ∈ (setSide app.view.side m o.side x n t).orders ↔ q ∈ (app.view.side n t).orders ∨
      (q = app.heap.orders.fresh ∧ n = m ∧ t = o.side ∧ (filled o now fs).resdLots ≠ 0) := by
    intro n t q
    rw [mem_setSide, orders, mem_ordersWith]
    constructor
    · rintro (⟨⟨rfl, rfl⟩, here | inside⟩ | ⟨-, inside⟩)
      · exact .inr ⟨here, rfl, rfl, resdLots⟩
      · exact .inl inside
      · exact .inl inside
    · rintro (inside | ⟨here, atM, atSide, -⟩)
      · exact (Decidable.em (n = m ∧ t = o.side)).imp (fun here => ⟨here, .inr (here.1 ▸ here.2 ▸ inside)⟩)
          fun there => ⟨there, inside⟩
      · exact .inl ⟨⟨atM, atSide⟩, .inl here⟩
  have others : ∀ q, q ≠ app.heap.orders.fresh → h.orders.find q = app.heap.orders.find q := fun q differ =>
    (frame.orders q differ).trans (OrdMap.find_put_ne _ _ differ)
  have kept : Heap.Kept (app.heap.newOrder (filled o now fs)) h :=
    { live := fun q => by
        cases eq_or_ne q app.heap.orders.fresh with
        | inl here => rw [here, present, Heap.find_newOrder, if_pos rfl]; rfl
        | inr differ => rw [frame.orders q differ]
      same := fun q => by
        cases eq_or_ne q app.heap.orders.fresh with
        | inl here => rw [here, own]; exact afterwards
        | inr differ => rw [frame.order differ]; exact .refl _ }
  exact
    { live := by
        have entered := live.enter outside frame wf (fun q => by rw [orders]; exact mem_ordersWith)
          (by rw [own]; exact afterwards) (by rw [own, same.marketId]; exact new.marketId)
          (by rw [own]; exact same.side) (by rw [order]; exact resdLots)
          (by rw [order]; exact filled_balance new.balance) (o := o)
          (by rw [own]; exact ⟨same.accnt.symm, same.marketId.symm, same.id.symm, same.ref.symm, same.side.symm,
            same.ticks.symm⟩)
          (by rw [own, same.accnt, same.key, new.accnt]; exact new.absent inv)
        rw [own, same.accnt, new.accnt] at entered
        rw [openedOrders, if_neg notDone, openedRefs]
        by_cases noRef : o.ref.isEmpty
        · rw [if_pos (.inr noRef)]
          rwa [if_pos noRef] at entered
        · rw [if_neg fun either => either.elim notDone noRef]
          rwa [if_neg noRef] at entered
      complete := fun q presentQ open_ => by
        rw [listed]
        cases eq_or_ne q app.heap.orders.fresh with
        | inl here =>
          rw [here, afterwards.marketId, same.marketId, afterwards.side, same.side]
          exact .inr ⟨rfl, new.marketId, rfl, resdLots⟩
        | inr differ =>
          have unchanged : h.order q = app.heap.order q := by simp only [Heap.order, OrdMap.get, others q differ]
          rw [others q differ] at presentQ
          rw [unchanged] at open_ ⊢
          exact .inl (inv.complete q presentQ open_)
      kept := (kept_filled app o now fs).trans kept
      order := ⟨_, order⟩
      others
      listed
      untouched := fun n t elsewhere => setSide_other elsewhere
      arranged := .inr (by rw [setSide_self, orders]) }

/-- Resting the new order in the book, and taking it back. -/
theorem rest_spec (inv : app.Inv) (new : New app a m o) {app₂ : App} (staged : Staged app m o now fs app₂) :
    ∃ app₃ h side, app₂.rest m app.heap.orders.fresh = some app₃ ∧ app₃.view = { app₂.view with heap := h, side } ∧
      Placed app a m o now fs h side ∧ app₃.execs = app₂.execs ∧ app₃.matches_ = app₂.matches_ ∧
      app₃.execs_ = app₂.execs_ ∧
      ∃ app₄, app₃.unrest m app.heap.orders.fresh = some app₄ ∧ app₄.view = app₂.view ∧ app₄.execs = app₂.execs ∧
        app₄.execs_ = app₂.execs_ := by
  have heap₂ : app₂.heap = app.heap.newOrder (filled o now fs) := congrArg View.heap staged.view
  have side₂ : app₂.view.side = app.view.side := by rw [staged.view]
  have order₂ : app₂.order app.heap.orders.fresh = filled o now fs := by
    rw [App.order, heap₂, Heap.order_newOrder_self]
  by_cases done : (filled o now fs).done
  · have rested : app₂.rest m app.heap.orders.fresh = some app₂ := by rw [rest, order₂, if_pos done]
    have back : app₂.unrest m app.heap.orders.fresh = some app₂ := by rw [unrest, order₂, if_pos done]
    refine ⟨app₂, app.heap.newOrder (filled o now fs), app.view.side, rested, ?_, .done inv done, rfl, rfl, rfl, app₂, back,
      rfl, rfl, rfl⟩
    rw [← heap₂, ← side₂]
    rfl
  · have ownSide : (filled o now fs).side = o.side := filled_same.side
    have live : Live (app.heap.newOrder (filled o now fs)) app.view.side app.view.orders app.view.refs :=
      inv.live.newOrder _
    have orderSide : ((app.heap.newOrder (filled o now fs)).order app.heap.orders.fresh).side = o.side := by
      rw [Heap.order_newOrder_self, ownSide]
    have outside : app.heap.orders.fresh ∉ (app.view.side m o.side).orders :=
      fun member => OrdMap.ne_fresh (inv.live.present member) rfl
    obtain ⟨h, x, lp, inserted, wf, orders, order, present, frame⟩ := insertOrder_spec (live.wf m o.side) outside orderSide
    rw [Heap.order_newOrder_self] at order
    have undone : removeOrder h x app.heap.orders.fresh =
        some (app.heap.newOrder (filled o now fs), app.view.side m o.side) := by
      refine removeOrder_insertOrder (live.wf m o.side) outside orderSide ?_ ?_ inserted
      · rw [Heap.find_newOrder, if_pos rfl]
        rfl
      · rw [Heap.order_newOrder_self, filled_level, new.unlinked]
    obtain ⟨app₃, rested⟩ : ∃ app₃, app₃ = { app₂ with heap := h }.setMarket m ((app₂.market m).setSide o.side x) :=
      ⟨_, rfl⟩
    have view₃ : app₃.view = app₂.view.setSide m o.side h x := by rw [rested, view_setSide]
    have order₃ : app₃.order app.heap.orders.fresh = { filled o now fs with level := some lp } := by
      rw [rested]
      exact order
    obtain ⟨app₄, back⟩ : ∃ app₄, app₄ = { app₃ with heap := app₂.heap }.setMarket m
        ((app₃.market m).setSide o.side (app.view.side m o.side)) := ⟨_, rfl⟩
    refine ⟨app₃, h, setSide app.view.side m o.side x, ?_, ?_, .rests inv new done wf orders order present frame, ?_, ?_, ?_,
      app₄, ?_, ?_, ?_, ?_⟩
    · rw [rest, order₂, if_neg done]
      simp only [Market.insertOrder]
      rw [onMarket_onSide, order₂, ownSide, heap₂, side₂, inserted, rested]
      rfl
    · rw [view₃, View.setSide, side₂]
    · rw [rested]
      rfl
    · rw [rested]
      rfl
    · rw [rested]
      rfl
    · have side₃ : app₃.view.side m o.side = x := by rw [view₃]; exact setSide_self
      have heap₃ : app₃.heap = h := congrArg View.heap view₃
      rw [unrest, order₃, if_neg (by exact done)]
      simp only [Market.removeOrder]
      rw [onMarket_onSide, order₃, heap₃, show ({ filled o now fs with level := some lp } : Order).side = o.side from ownSide,
        side₃, undone, back, heap₂]
      rfl
    · rw [back, view_setSide, view₃]
      simp only [View.setSide, setSide_setSide, side₂]
      rw [setSide_same rfl, ← side₂]
      rfl
    · rw [back, rested]
      rfl
    · rw [back, rested]
      rfl

theorem length_execs (h : Heap) (o : Order) (now : Int) (fs : List Fill) :
    (fs.flatMap (Fill.execs h o now)).length = 2 * fs.length := by
  induction fs with
  | nil => rfl
  | cons f fs inductionHypothesis =>
    rw [List.flatMap_cons, List.length_append, inductionHypothesis, List.length_cons]
    show 2 + 2 * fs.length = _
    omega

/-- The addresses in the scratch vector are those of the new executions. -/
theorem Staged.pointers {app₂ : App} (staged : Staged app m o now fs app₂) :
    app₂.execs_ = (List.range (Exec.make o o.id now :: fs.flatMap (Fill.execs app.heap o now)).length).map
      (app.execs.fresh + ·) := by
  rw [staged.execs_, List.length_cons, length_execs, Nat.add_comm]

/-- The state after a call that throws at the journal. -/
structure Restored (app : App) (m : Int) (given : Int) (app' : App) : Prop where
  view : app'.view = { app.view with maxId := update app.view.maxId m given }
  execs : app'.execs = app.execs
  matches_ : app'.matches_ = []
  execs_ : app'.execs_ = []

/-- Releasing the executions that a call has made leaves only their ids used. -/
theorem Restored.release {given : Int} (es : List Exec) {reports : Store Exec}
    (view : app'.view = { app.view with maxId := update app.view.maxId m given, reports })
    (execs : app'.execs = app.execs.allocs es) (matches_ : app'.matches_ = []) (execs_ : app'.execs_ = []) :
    Restored app m given (app'.releaseExecs ((List.range es.length).map (app.execs.fresh + ·))) := by
  have released : app'.execs.release ((List.range es.length).map (app.execs.fresh + ·)) = app.execs := by
    rw [execs]
    exact OrdMap.release_allocs _ _
  refine ⟨?_, released, matches_, execs_⟩
  have split : (app'.releaseExecs ((List.range es.length).map (app.execs.fresh + ·))).view =
      { app'.view with
        reports := (app'.execs.release ((List.range es.length).map (app.execs.fresh + ·))).map Exec.unstamped } := rfl
  rw [split, released, view]
  rfl

theorem discard_spec {app₂ app₄ : App} (staged : Staged app m o now fs app₂) (view₄ : app₄.view = app₂.view)
    (execs₄ : app₄.execs = app₂.execs) (pointers₄ : app₄.execs_ = app₂.execs_) :
    Restored app m (app.view.maxId m + 1 + 2 * fs.length) (app₄.discard app.heap.orders.fresh) := by
  have released : app₄.execs.release app₄.execs_ = app.execs := by
    rw [execs₄, pointers₄, staged.pointers, staged.execs]
    exact OrdMap.release_allocs _ _
  have heap₄ : app₄.heap.freeOrder app.heap.orders.fresh = app.heap := by
    rw [show app₄.heap = app.heap.newOrder (filled o now fs) from
      (congrArg View.heap view₄).trans (congrArg View.heap staged.view), Heap.freeOrder_newOrder]
  refine ⟨?_, released, rfl, rfl⟩
  have split : (app₄.discard app.heap.orders.fresh).view = { app₄.view with
      heap := app₄.heap.freeOrder app.heap.orders.fresh
      reports := (app₄.execs.release app₄.execs_).map Exec.unstamped } := rfl
  rw [split, released, heap₄, view₄, staged.view]
  rfl

/-- The reports of the call: the new order, then its matches. -/
def newReports (app : App) (o : Order) (now : Int) (fs : List Fill) : List Exec :=
  Exec.make o o.id now :: fs.flatMap (Fill.execs app.heap o now)

theorem Staged.journal {app₂ : App} (staged : Staged app m o now fs app₂) :
    app₂.execs_.map app₂.exec = newReports app o now fs := by
  rw [staged.pointers]
  have exec : app₂.exec = app₂.execs.get := rfl
  rw [exec, staged.execs]
  exact OrdMap.map_get_allocs _ _

/-- The first steps of the commit phase. -/
theorem opened_spec {app₂ app₃ : App} {h : Heap} {side : Int → Side → MarketSide}
    (staged : Staged app m o now fs app₂) (view₃ : app₃.view = { app₂.view with heap := h, side })
    (placed : Placed app a m o now fs h side) {mq : MsgQueue}
    (journal : app.mq.createExecs (newReports app o now fs) = some mq) :
    ∃ app₅ v, app₅ = App.pushExecFront
        (if ({ app₃ with mq } : App).order app.heap.orders.fresh |>.done then { app₃ with mq }
          else ({ app₃ with mq } : App).setSess a ((({ app₃ with mq } : App).sess a).insertOrder app.heap.orders.fresh
            (({ app₃ with mq } : App).order app.heap.orders.fresh))) a app.execs.fresh ∧
      app₅.view = v ∧ Opened app a m o now fs v ∧ app₅.execs = app₃.execs ∧ app₅.matches_ = app₃.matches_ := by
  obtain ⟨lp, order⟩ := placed.order
  have heap₃ : app₃.heap = h := congrArg View.heap view₃
  have order₃ : ({ app₃ with mq } : App).order app.heap.orders.fresh = { filled o now fs with level := lp } := by
    rw [← order, ← heap₃]
    rfl
  obtain ⟨prepared, view⟩ : ∃ v : View, v = { app.view with
      mq, heap := h, side
      maxId := update app.view.maxId m (app.view.maxId m + 1 + 2 * fs.length)
      reports := app.view.reports.allocs (newReports app o now fs) } := ⟨_, rfl⟩
  have view₃ : ({ app₃ with mq } : App).view = prepared := by
    rw [view_setMq, view₃, staged.view, view]
    rfl
  have same : ({ filled o now fs with level := lp } : Order).Same o := by
    have same : (filled o now fs).Same o := filled_same
    exact ⟨same.accnt, same.marketId, same.id, same.ref, same.side, same.ticks⟩
  rw [order₃]
  by_cases done : (filled o now fs).done
  · refine ⟨_, _, rfl, rfl, ?_, ?_, ?_⟩
    · rw [if_pos (by exact done), view_pushExecFront, view₃, view]
      exact
        { placed
          journal
          view := by
            rw [openedOrders, if_pos done, openedRefs, if_pos (.inl done)]
            rfl }
    · rw [if_pos (by exact done)]
      rfl
    · rw [if_pos (by exact done)]
      rfl
  · refine ⟨_, _, rfl, rfl, ?_, ?_, ?_⟩
    · rw [if_neg (by exact done), view_pushExecFront, view_insertOrder, view₃, view, View.insertOrder, same.key, same.ref]
      exact
        { placed
          journal
          view := by
            rw [openedOrders, if_neg done, openedRefs]
            by_cases noRef : o.ref.isEmpty
            · rw [if_pos noRef, if_pos (.inr noRef)]
              rfl
            · rw [if_neg noRef, if_neg fun either => either.elim done noRef]
              rfl }
    · rw [if_neg (by exact done)]
      rfl
    · rw [if_neg (by exact done)]
      rfl

end Place

/-- The trades of the fills are among the executions that the call makes. -/
theorem isSome_trades {o : Order} {f : Fill} (member : f ∈ app.incomingFills m o) {e : ExecPtr} (trade : e ∈ f.trades) :
    ((app.execs.allocs (newReports app o now (app.incomingFills m o))).find e).isSome := by
  have inside : e ∈ (app.incomingFills m o).flatMap Fill.trades := List.mem_flatMap.mpr ⟨f, member, trade⟩
  rw [incomingFills, fillsOf_trades] at inside
  obtain ⟨i, small, rfl⟩ := List.mem_map.mp inside
  have small := List.mem_range.mp small
  refine OrdMap.isSome_find_allocs _ _ (by omega) ?_
  rw [newReports, List.length_cons, length_execs]
  have length : (app.incomingFills m o).length = (fillsOf app.heap (app.makers m o) o (app.view.maxId m + 1)
    (app.execs.fresh + 1)).length := rfl
  omega

/-- The makers are still in the book when the commit loop starts. -/
theorem ready (inv : app.Inv) {app₅ : App} {o : Order} (execs₅ : app₅.execs = app.execs.allocs
      (newReports app o now (app.incomingFills m o))) {v : View} (view₅ : app₅.view = v)
    (opened : Opened app a m o now (app.incomingFills m o) v) :
    Ready app₅ m o.side.opposite ((app.incomingFills m o).map fun f => f.toMatch app.heap m) := by
  have heap₅ : app₅.heap = v.heap := congrArg View.heap view₅
  have order : ∀ f ∈ app.incomingFills m o, app₅.order f.maker = app.heap.order f.maker := by
    intro f member
    have differ := OrdMap.ne_fresh (inv.live.present (mem_fillsOf member).1)
    simp only [App.order, heap₅, Heap.order, OrdMap.get]
    rw [opened.placed.others _ differ]
  have trades : ∀ f ∈ app.incomingFills m o, ∀ e ∈ f.trades, (app₅.execs.find e).isSome := by
    intro f member e trade
    rw [execs₅]
    exact isSome_trades member trade
  exact
    { nodup := by
        rw [List.map_map]
        exact fillsOf_nodup (inv.live.wf m _).nodup
      listed := List.forall_mem_map.mpr fun f member => by
        rw [view₅, opened.placed.listed]
        exact .inl (mem_fillsOf member).1
      lots := List.forall_mem_map.mpr fun f member => by
        show f.lots ≤ (app₅.order f.maker).resdLots
        rw [order f member]
        exact (mem_fillsOf member).2.1
      posn := List.forall_mem_map.mpr fun f member => by
        show ((app.heap.order f.maker).accnt, m) = ((app₅.order f.maker).accnt, m)
        rw [order f member]
      makerTrade := List.forall_mem_map.mpr fun f member => trades f member _ (by simp [Fill.trades, Fill.toMatch])
      takerTrade := List.forall_mem_map.mpr fun f member => trades f member _ (by simp [Fill.trades, Fill.toMatch]) }

/-- The response of a call that commits. -/
def createdResponse (app : App) (a : Symbol) (m : Int) (fs : List Fill) : Response :=
  let resp := (fs.foldl (fun resp f => f.respond app.heap a resp)
    ((Response.empty.insertOrder app.heap.orders.fresh).insertExec app.execs.fresh)).setMarket m
  if fs = [] then resp else resp.setPosn (a, m)

/-- What a call that commits files. -/
def createdLedger (app : App) (a : Symbol) (m : Int) (o : Order) (now : Int) (fs : List Fill) : Ledger :=
  (fs.map fun f => f.toMatch app.heap m).foldl (bookMatch a m)
    ((app.view.ledger (app.execs.allocs (newReports app o now fs))).push a app.execs.fresh)

/-- How a call of `create_order` ends. -/
inductive Created (app : App) (a : Symbol) (m : Int) (ref : Bytes) (lots minLots now busDay : Int) (o : Order) :
    Outcome Response → Prop
  | rejected {e : Exception} (checked : app.admission a m ref lots minLots busDay = some e) :
      Created app a m ref lots minLots now busDay o (.throw e app)
  | unjournaled {app' : App} (checked : app.admission a m ref lots minLots busDay = none)
      (full : app.mq.createExecs (newReports app o now (app.incomingFills m o)) = none)
      (restored : Restored app m (app.view.maxId m + 1 + 2 * (app.incomingFills m o).length) app') :
      Created app a m ref lots minLots now busDay o (.throw .insufficientQueueCapacity app')
  | committed {resp : Response} {app' : App} {v : View} (checked : app.admission a m ref lots minLots busDay = none)
      (opened : Opened app a m o now (app.incomingFills m o) v)
      (commits : Commits a m o.side.opposite now ((app.incomingFills m o).map fun f => f.toMatch app.heap m) v app'.view)
      (matches_ : app'.matches_ = []) (execs_ : app'.execs_ = [])
      (ledger : app'.ledger = createdLedger app a m o now (app.incomingFills m o))
      (response : resp = createdResponse app a m (app.incomingFills m o)) :
      Created app a m ref lots minLots now busDay o (.ok resp app')

theorem createOrder_spec (inv : app.Inv) (a : Symbol) (m : Int) (ref : Bytes) (side : Side)
    (lots ticks minLots now busDay : Int) :
    Created app a m ref lots minLots now busDay (app.incoming a m ref side lots ticks minLots now)
      (app.createOrder a m ref side lots ticks minLots now busDay) := by
  rw [createOrder]
  cases checked : app.admission a m ref lots minLots busDay with
  | some e => exact .rejected checked
  | none =>
    obtain ⟨o, incoming⟩ : ∃ o, o = app.incoming a m ref side lots ticks minLots now := ⟨_, rfl⟩
    have new : New app a m o := incoming ▸ incoming_new
    obtain ⟨app₁, place, view₁, execs₁, matches₁, pointers₁⟩ := place_spec ⟨inv.matches_, inv.execs_⟩ incoming
    have sesss₁ : app₁.sesss = app.sesss := congrArg (fun placed : OrderPtr × ExecPtr × App => placed.2.2.sesss) place.symm
    rw [← incoming]
    obtain ⟨app₂, resp, matched, staged, told⟩ := staged (a := a) (fun q member => inv.live.present member) view₁ execs₁
      matches₁ pointers₁ (fun f member => by rw [sesss₁]; exact inv.live.known (mem_fillsOf member).1)
      ((Response.empty.insertOrder app.heap.orders.fresh).insertExec app.execs.fresh)
    simp only [place, matched]
    -- The position of the taker is made only if there are matches.
    obtain ⟨prepared, made⟩ : ∃ prepared, prepared =
      if (!app₂.matches_.isEmpty) = true then app₂.ensurePosn a m else app₂ := ⟨_, rfl⟩
    have response : (if (!app₂.matches_.isEmpty) = true then (resp.setMarket m).setPosn (a, m) else resp.setMarket m) =
        createdResponse app a m (app.incomingFills m o) := by
      rw [staged.matches_, told, createdResponse]
      cases app.incomingFills m o <;> rfl
    have staged : Staged app m o now (app.incomingFills m o) prepared := by
      rw [made]
      split
      next => exact ⟨(view_ensurePosn a m).trans staged.view, staged.execs, staged.matches_, staged.execs_⟩
      next => exact staged
    rw [← made, response]
    obtain ⟨app₃, h, sides, rested, view₃, placed, execs₃, matches₃, pointers₃, app₄, back, view₄, execs₄, pointers₄⟩ :=
      rest_spec inv new staged
    have journal : app₃.execs_.map app₃.exec = newReports app o now (app.incomingFills m o) := by
      rw [← staged.journal, pointers₃]
      exact List.map_congr_left fun e _ => congrArg (fun execs : Store Exec => execs.get e) execs₃
    have mq₃ : app₃.mq = app.mq := (congrArg View.mq view₃).trans (congrArg View.mq staged.view)
    rw [rested]
    simp only [journal, mq₃]
    cases posted : app.mq.createExecs (newReports app o now (app.incomingFills m o)) with
    | none =>
      simp only [back]
      exact .unjournaled checked posted (discard_spec staged view₄ execs₄ pointers₄)
    | some mq =>
      obtain ⟨app₅, v, first, view₅, opened, execs₅, matches₅⟩ := opened_spec (a := a) staged view₃ placed posted
      have matches_ : app₅.matches_ = (app.incomingFills m o).map fun f => f.toMatch app.heap m := by
        rw [matches₅, matches₃, staged.matches_]
      have live : app₅.view.Live := by
        rw [view₅, opened.view]
        exact opened.placed.live
      have execs : app₅.execs = app.execs.allocs (newReports app o now (app.incomingFills m o)) :=
        execs₅.trans (execs₃.trans staged.execs)
      have ledger₅ : app₅.ledger = (app.view.ledger app₅.execs).push a app.execs.fresh := by
        rw [App.ledger, view₅, opened.view]
        rfl
      obtain ⟨app₆, committed, commits, ledger⟩ := commitAll_spec a now live _ (ready inv execs view₅ opened)
      simp only [commitOrder, ← first, commitMatches, matches_, committed]
      refine .committed checked opened (view₅ ▸ commits) rfl rfl ?_ rfl
      rw [createdLedger, ← execs, ← ledger₅, ← ledger]
      rfl

end App

end Swirly
