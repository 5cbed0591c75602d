import Swirly.Db.SqliteJourn
import Swirly.Db.SqliteModel
import Swirly.Lob.Load
import Swirly.Verified.TimePriority

/-!
# Reloading the book

`App::load` inserts the orders in the order in which their rows are delivered, so a rebuilt side lists the orders of one
price in that order (`Loading.sides`).  The live book lists them by id.
-/

namespace Swirly

open Function MarketSide

/-- What the database keeps of an order. -/
def Order.row (o : Order) : OrderRow :=
  { accnt := toStringView o.accnt.buf
    marketId := o.marketId
    instr := toStringView o.instr.buf
    settlDay := maybeNull o.settlDay
    id := o.id
    ref := maybeNullText (toStringView o.ref.data)
    state := o.state
    side := o.side
    lots := o.lots
    ticks := o.ticks
    resdLots := o.resdLots
    execLots := o.execLots
    execCost := o.execCost
    lastLots := if 0 < o.lastLots then some o.lastLots else none
    lastTicks := if 0 < o.lastLots then some o.lastTicks else none
    minLots := o.minLots
    created := msSinceEpoch o.created
    modified := msSinceEpoch o.modified }

/-- What sides sort rows by. -/
def OrderRow.rank (row : OrderRow) : Int := composeKey row.side row.ticks

theorem maybeNull_getD (val : Int) : maybeNull ((maybeNull val).getD 0) = maybeNull val := by
  unfold maybeNull
  split
  next => rfl
  next nonzero => rw [Option.getD_some, if_neg nonzero]

theorem maybeNullText_getD (val : Bytes) : (maybeNullText val).getD [] = val := by
  unfold maybeNullText
  split
  next empty => exact (List.isEmpty_iff.mp empty).symm
  next => rfl

theorem msSinceEpoch_toTime (ms : Int) : msSinceEpoch (toTime ms) = ms :=
  Int.mul_tdiv_cancel ms (by decide)

theorem Symbol.text_assign (s : Symbol) : toStringView (assign (toStringView s.buf)).buf = toStringView s.buf := by
  have fits : (toStringView s.buf).length ≤ maxSymbol := (length_toStringView_le _).trans s.size.le
  rw [assign, toStringView_pstrcpy fits, toStringView_idem]

/-- Reading an order back loses nothing that the database keeps. -/
@[simp] theorem Order.row_read (o : Order) : o.row.order.row = o.row := by
  have ref : (StringBuf.assign (toStringView o.ref.data) : Ref).data = toStringView o.ref.data :=
    StringBuf.assign_data ((length_toStringView_le _).trans o.ref.bounded)
  simp only [row, OrderRow.order, Symbol.text_assign, maybeNull_getD, maybeNullText_getD, ref, toStringView_idem,
    msSinceEpoch_toTime]
  by_cases traded : 0 < o.lastLots
  · simp only [if_pos traded, Option.getD_some]
  · simp only [if_neg traded, Option.getD_none, lt_irrefl, if_false]

namespace App

variable {app app' : App}

/-- The order enters its side and its session, in a heap `h` with the side `x`. -/
structure Booked (app : App) (o : Order) (h : Heap) (x : MarketSide) (app' : App) : Prop where
  loaded : app.loadOrder o = some app'
  view : app'.view = (((app.view.newOrder o).insertOrder o.accnt app.heap.orders.fresh o).setSide o.marketId o.side h x)
  live : app'.view.Live
  orders : x.orders = ordersWith (app.heap.newOrder o) (app.view.side o.marketId o.side) app.heap.orders.fresh
  own : ∃ lp, h.order app.heap.orders.fresh = { o with level := lp }
  others : ∀ q, q ≠ app.heap.orders.fresh → h.orders.find q = app.heap.orders.find q
  markets : ∀ m, (app'.markets.find m).isSome = (app.markets.find m).isSome
  scratch : app'.matches_ = app.matches_ ∧ app'.execs_ = app.execs_

/-- An order of `read_order` with a key that no order has yet. -/
theorem loadOrder_spec (live : app.view.Live) {o : Order} (absent : (app.view.orders o.accnt).find o.key = none)
    (open_ : o.resdLots ≠ 0) (balance : o.resdLots + o.execLots = o.lots) (known : (app.markets.find o.marketId).isSome) :
    ∃ h x app', Booked app o h x app' := by
  obtain ⟨p, fresh⟩ : ∃ p, p = app.heap.orders.fresh := ⟨_, rfl⟩
  obtain ⟨h, heap⟩ : ∃ h, h = app.heap.newOrder o := ⟨_, rfl⟩
  have order : h.order p = o := by rw [heap, fresh, Heap.order_newOrder_self]
  have entering : Live h app.view.side app.view.orders app.view.refs := heap ▸ live.newOrder o
  have outside : ∀ n t, p ∉ (app.view.side n t).orders := fun n t member => OrdMap.ne_fresh (live.present member) fresh
  obtain ⟨h', x, lp, inserted, wf, orders, own, present, frame⟩ :=
    insertOrder_spec (entering.wf o.marketId o.side) (outside _ _) (by rw [order])
  obtain ⟨app₁, indexed⟩ : ∃ app₁, app₁ = ((app.ensureSess o.accnt).newOrder o).2.setSess o.accnt
      ((((app.ensureSess o.accnt).newOrder o).2.sess o.accnt).insertOrder p o) := ⟨_, rfl⟩
  have view₁ : app₁.view = (app.view.newOrder o).insertOrder o.accnt p o := by
    rw [indexed, view_insertOrder, view_newOrder, view_ensureSess]
  have heap₁ : app₁.heap = h := by
    rw [heap]
    exact congrArg View.heap view₁
  have side₁ : app₁.view.side = app.view.side := by rw [view₁]; rfl
  have order₁ : app₁.order p = o := by rw [App.order, heap₁, order]
  have markets₁ : app₁.markets = app.markets := by rw [indexed]; rfl
  obtain ⟨app₂, placed⟩ : ∃ app₂, app₂ =
      { app₁ with heap := h' }.setMarket o.marketId ((app₁.market o.marketId).setSide o.side x) := ⟨_, rfl⟩
  have view₂ : app₂.view = ((app.view.newOrder o).insertOrder o.accnt p o).setSide o.marketId o.side h' x := by
    rw [placed, view_setSide, view₁]
  subst fresh
  refine ⟨h', x, app₂, ⟨?_, view₂, ?_, heap ▸ orders, ⟨some lp, by rw [own, order]⟩, fun q differ => ?_, fun n => ?_, ?_⟩⟩
  · have step : app₁.onMarket o.marketId (fun h k => k.insertOrder h app.heap.orders.fresh) = some app₂ := by
      rw [show (fun h k => Market.insertOrder h k app.heap.orders.fresh) =
          fun h (k : Market) => k.onSide h app.heap.orders.fresh fun h s => s.insertOrder h app.heap.orders.fresh from rfl,
        onMarket_onSide, order₁, heap₁, side₁, inserted, placed]
      rfl
    obtain ⟨k, found⟩ := Option.isSome_iff_exists.mp known
    simp only [App.loadOrder]
    rw [show (app.ensureSess o.accnt).newOrder o = (app.heap.orders.fresh, ((app.ensureSess o.accnt).newOrder o).2) from rfl]
    simp only
    rw [← indexed, markets₁, found]
    exact step
  · rw [view₂]
    have entered := entering.enter outside frame wf (fun q => by rw [orders]; exact mem_ordersWith)
      (by rw [own, order]; exact ⟨rfl, rfl, rfl, rfl, rfl, rfl⟩) (by rw [order]) (by rw [order])
      (by rw [own, order]; exact open_) (by rw [own, order]; exact balance) (o := o)
      (by rw [order]; exact .refl _) (by rw [order]; exact absent)
    rwa [order] at entered
  · rw [frame.orders q differ, heap, Heap.find_newOrder, if_neg differ]
  · rw [placed]
    show (OrdMap.find (OrdMap.put app₁.markets _ _) n).isSome = _
    rw [OrdMap.find_put, markets₁]
    split
    next here => rw [here, known]; rfl
    next => rfl
  · rw [placed, indexed]
    exact ⟨rfl, rfl⟩

theorem Booked.order_ne {o : Order} {h : Heap} {x : MarketSide} (booked : Booked app o h x app') {q : OrderPtr}
    (differ : q ≠ app.heap.orders.fresh) : app'.order q = app.order q := by
  have heap : app'.heap = h := congrArg View.heap booked.view
  simp only [App.order, heap, Heap.order, OrdMap.get, booked.others q differ]

/-- The rows of the orders that a side lists. -/
def sideRows (app : App) (m : Int) (s : Side) : List OrderRow := (app.view.side m s).orders.map fun p => (app.order p).row

/-- The rows of one side. -/
def atSide (m : Int) (s : Side) (rows : List OrderRow) : List OrderRow :=
  rows.filter fun row => row.marketId = m ∧ row.side = s

/-- The engine while the orders of `rows` have been loaded. -/
structure Loading (rows : List OrderRow) (app : App) : Prop where
  live : app.view.Live
  sides : ∀ m s, app.sideRows m s = (atSide m s rows).foldl (List.arrive OrderRow.rank) []

theorem Loading.mem (loading : Loading rows app) {m : Int} {s : Side} {row : OrderRow} (member : row ∈ app.sideRows m s) :
    row ∈ rows := by
  rw [loading.sides, List.mem_foldl_arrive] at member
  exact (List.mem_filter.mp (member.resolve_left List.not_mem_nil)).1

/-- One order of `read_order`. -/
theorem Loading.loadOrder (loading : Loading rows app) {row : OrderRow} (same : row.order.row = row)
    (new : row.key ∉ rows.map OrderRow.key) (open_ : row.resdLots ≠ 0) (balance : row.resdLots + row.execLots = row.lots)
    (market : (app.markets.find row.marketId).isSome) :
    ∃ app', app.loadOrder row.order = some app' ∧ Loading (rows ++ [row]) app' ∧
      ∀ m, (app.markets.find m).isSome → (app'.markets.find m).isSome := by
  have absent : (app.view.orders row.order.accnt).find row.order.key = none := by
    cases found : (app.view.orders row.order.accnt).find row.order.key with
    | none => rfl
    | some q =>
      obtain ⟨-, key, listed⟩ := loading.live.booked _ _ q found
      have known := loading.mem (List.mem_map_of_mem (f := fun p => (app.order p).row) listed)
      refine absurd (List.mem_map_of_mem (f := OrderRow.key) known) ?_
      rwa [show (app.order q).row.key = row.key from key]
  obtain ⟨h, x, app', booked⟩ := loadOrder_spec loading.live absent open_ balance market
  refine ⟨app', booked.loaded, { live := booked.live, sides := fun n t => ?_ }, fun m known => (booked.markets m).symm ▸ known⟩
  obtain ⟨p, fresh⟩ : ∃ p, p = app.heap.orders.fresh := ⟨_, rfl⟩
  have outside : ∀ n t, p ∉ (app.view.side n t).orders := fun n t member =>
    OrdMap.ne_fresh (loading.live.present member) fresh
  have rowOwn : (app'.order p).row = row := by
    obtain ⟨lp, own⟩ := booked.own
    rw [App.order, show app'.heap = h from congrArg View.heap booked.view, fresh, own]
    exact same
  have sideOf : app'.view.side = setSide app.view.side row.marketId row.side x := by rw [booked.view]; rfl
  have kept : ∀ m s, ∀ q ∈ (app.view.side m s).orders, (app'.order q).row = (app.order q).row := fun m s q member => by
    rw [booked.order_ne fun here => outside m s (fresh ▸ here ▸ member)]
  -- The new row arrives at its own side.
  unfold atSide
  rw [List.filter_append, List.foldl_append]
  by_cases here : n = row.marketId ∧ t = row.side
  · obtain ⟨rfl, rfl⟩ := here
    rw [List.filter_cons_of_pos (by simp), List.filter_nil, List.foldl_cons, List.foldl_nil, ← atSide, ← loading.sides,
      sideRows, sideOf, setSide_self, booked.orders, sideRows]
    have arrived := @List.map_arrive _ _ _ OrderRow.rank _ (fun q => (app'.order q).row)
      (app.view.side row.marketId row.side).orders p
    rw [rowOwn, List.map_congr_left (kept row.marketId row.side)] at arrived
    rw [← arrived, fresh, show row.order.marketId = row.marketId from rfl, show row.order.side = row.side from rfl]
    congr 1
    unfold ordersWith List.arrive
    have rank : ∀ q ∈ p :: (app.view.side row.marketId row.side).orders,
        (OrderRow.rank ∘ fun q => (app'.order q).row) q = (app.heap.newOrder row.order).key q := fun q member => by
      cases List.mem_cons.mp member with
      | inl self =>
        rw [self, comp_apply, rowOwn, Heap.key, fresh, Heap.order_newOrder_self]
        rfl
      | inr old =>
        have differ : q ≠ app.heap.orders.fresh := fun here => outside _ _ (fresh ▸ here ▸ old)
        rw [comp_apply, kept _ _ q old, Heap.key, Heap.order_newOrder_ne _ _ differ]
        rfl
    rw [← fresh, rank p List.mem_cons_self]
    congr 1
    · exact List.filter_congr fun q member => by rw [rank q (List.mem_cons_of_mem _ member)]
    · congr 1
      exact List.filter_congr fun q member => by rw [rank q (List.mem_cons_of_mem _ member)]
  · rw [List.filter_cons_of_neg (by
        intro holds
        simp only [decide_eq_true_eq] at holds
        exact here ⟨holds.1.symm, holds.2.symm⟩), List.filter_nil, List.foldl_nil,
      ← atSide, ← loading.sides, sideRows, sideOf, setSide_other here]
    exact List.map_congr_left (kept n t)

/-- The rows of `read_order`, one after the other. -/
theorem Loading.loadOrders (rows : List OrderRow) {before : List OrderRow} {app : App} (loading : Loading before app)
    (read : ∀ row ∈ rows, row.order.row = row) (keys : ((before ++ rows).map OrderRow.key).Nodup)
    (open_ : ∀ row ∈ rows, row.resdLots ≠ 0) (balance : ∀ row ∈ rows, row.resdLots + row.execLots = row.lots)
    (market : ∀ row ∈ rows, (app.markets.find row.marketId).isSome) :
    ∃ app', (rows.map OrderRow.order).foldlM App.loadOrder app = some app' ∧ Loading (before ++ rows) app' := by
  induction rows generalizing before app with
  | nil => exact ⟨app, rfl, by rwa [List.append_nil]⟩
  | cons row rows inductionHypothesis =>
    obtain ⟨readFirst, read⟩ := List.forall_mem_cons.mp read
    obtain ⟨openFirst, open_⟩ := List.forall_mem_cons.mp open_
    obtain ⟨balanceFirst, balance⟩ := List.forall_mem_cons.mp balance
    obtain ⟨marketFirst, market⟩ := List.forall_mem_cons.mp market
    have new : row.key ∉ before.map OrderRow.key := fun old => by
      rw [List.map_append, List.nodup_append] at keys
      exact keys.2.2 _ old _ List.mem_cons_self rfl
    obtain ⟨app₁, first, loading₁, known⟩ := loading.loadOrder readFirst new openFirst balanceFirst marketFirst
    obtain ⟨app', rest, loaded⟩ := inductionHypothesis loading₁ read (by rwa [List.append_assoc, List.singleton_append])
      open_ balance fun r member => known _ (market r member)
    refine ⟨app', ?_, by rwa [List.append_assoc, List.singleton_append] at loaded⟩
    rw [List.map_cons, List.foldlM_cons, first]
    exact rest

/-- Markets without orders. -/
theorem Loading.of_empty (side : app.view.side = fun _ _ => .empty) (orders : app.view.orders = fun _ => ∅)
    (refs : app.view.refs = fun _ => ∅) : Loading [] app where
  live := by
    rw [View.Live, side, orders, refs]
    exact
      { wf := fun m s => .empty s _
        market := nofun
        resdLots := nofun
        balance := nofun
        filed := nofun
        booked := nofun
        refs := nofun }
  sides m s := by
    rw [sideRows, side]
    rfl

/-- What a `Model` delivers of the engine's state: its markets, and a row for each order that the statement selects. -/
structure Delivers (app : App) (rows : List OrderRow) (model : Model) : Prop where
  orders : model.orders = rows.map OrderRow.order
  nodup : rows.Nodup
  selected : ∀ row, row ∈ rows ↔ 0 < row.resdLots ∧ ∃ m s, row ∈ app.sideRows m s
  markets : ∀ m, (app.markets.find m).isSome → m ∈ model.markets.map Prod.fst
  empty : ∀ x ∈ model.markets, x.2.bidSide = .empty ∧ x.2.offerSide = .empty

/-- The two engines list the same orders in the same order, and so make the same deals with any taker. -/
structure SamePriority (app app' : App) : Prop where
  rows : ∀ m s, app'.sideRows m s = app.sideRows m s
  deals : ∀ m o, (app'.deals m o).map (fun d => ((app'.order d.maker).id, d.lots, d.ticks)) =
    (app.deals m o).map fun d => ((app.order d.maker).id, d.lots, d.ticks)

/-- The deals depend on the rows of the makers only. -/
theorem reference_rows {h h' : Heap} {taker : Order} {makers makers' : List OrderPtr} (want : Int)
    (same : (makers'.map fun q => (h'.order q).row) = makers.map fun q => (h.order q).row) :
    (reference h' taker want makers').map (fun d => ((h'.order d.maker).id, d.lots, d.ticks)) =
      (reference h taker want makers).map fun d => ((h.order d.maker).id, d.lots, d.ticks) := by
  induction makers generalizing makers' want with
  | nil =>
    obtain rfl := List.map_eq_nil_iff.mp same
    rfl
  | cons q qs inductionHypothesis =>
    obtain ⟨q', qs', rfl, sameFirst, sameRest⟩ := List.map_eq_cons_iff.mp same
    have ticks : (h'.order q').ticks = (h.order q).ticks := congrArg OrderRow.ticks sameFirst
    have resdLots : (h'.order q').resdLots = (h.order q).resdLots := congrArg OrderRow.resdLots sameFirst
    have id : (h'.order q').id = (h.order q).id := congrArg OrderRow.id sameFirst
    rw [reference, reference, ticks, resdLots]
    split
    next => rfl
    next =>
      split
      next => rfl
      next => rw [List.map_cons, List.map_cons, inductionHypothesis _ sameRest, id]

theorem SamePriority.of_rows (rows : ∀ m s, app'.sideRows m s = app.sideRows m s) : SamePriority app app' where
  rows
  deals m o := reference_rows _ (rows m o.side.opposite)

section Load

variable {model : Model}

theorem loadMarkets_find (markets : List (Int × Market)) (app : App) (m : Int) :
    ((markets.foldl loadMarket app).markets.find m).isSome ↔ (app.markets.find m).isSome ∨ m ∈ markets.map Prod.fst := by
  induction markets generalizing app with
  | nil => simp
  | cons x markets inductionHypothesis =>
    rw [List.foldl_cons, inductionHypothesis, loadMarket, OrdMap.find_insert, List.map_cons, List.mem_cons]
    by_cases here : m = x.1
    · simp [here]
    · simp [here]

/-- Loading markets makes no orders. -/
theorem loadMarkets_sides (markets : List (Int × Market)) (app : App)
    (empty : ∀ x ∈ markets, x.2.bidSide = .empty ∧ x.2.offerSide = .empty) (side : app.view.side = fun _ _ => .empty) :
    (markets.foldl loadMarket app).view.side = fun _ _ => .empty := by
  induction markets generalizing app with
  | nil => exact side
  | cons x markets inductionHypothesis =>
    obtain ⟨emptyFirst, empty⟩ := List.forall_mem_cons.mp empty
    refine inductionHypothesis _ empty ?_
    funext m s
    have before : (app.market m).side s = .empty := congrFun (congrFun side m) s
    show ((app.loadMarket x).market m).side s = .empty
    simp only [App.market, OrdMap.get, loadMarket, OrdMap.find_insert] at before ⊢
    split
    next here =>
      subst here
      cases found : app.markets.find x.1 with
      | some k => rwa [found] at before
      | none =>
        cases s with
        | buy => exact emptyFirst.1
        | sell => exact emptyFirst.2
    next => exact before

theorem loadMarkets_rest (markets : List (Int × Market)) (app : App) :
    (markets.foldl loadMarket app).sesss = app.sesss := by
  induction markets generalizing app with
  | nil => rfl
  | cons x markets inductionHypothesis => exact inductionHypothesis (app.loadMarket x)

/-- The two engines have the same orders in the same books. -/
def SameBook (app app' : App) : Prop := app'.heap = app.heap ∧ app'.markets = app.markets

theorem SameBook.trans {app'' : App} (first : SameBook app app') (second : SameBook app' app'') : SameBook app app'' :=
  ⟨second.1.trans first.1, second.2.trans first.2⟩

theorem SameBook.foldl {α : Type} {f : App → α → App} (step : ∀ app x, SameBook app (f app x)) (xs : List α) (app : App) :
    SameBook app (xs.foldl f app) := by
  induction xs generalizing app with
  | nil => exact ⟨rfl, rfl⟩
  | cons x xs inductionHypothesis =>
    obtain ⟨heap, markets⟩ := inductionHypothesis (f app x)
    exact ⟨heap.trans (step app x).1, markets.trans (step app x).2⟩

theorem SameBook.sideRows (same : SameBook app app') (m : Int) (s : Side) : app'.sideRows m s = app.sideRows m s := by
  simp only [App.sideRows, App.view, App.market, App.order, same.1, same.2]

/-- Each side is rebuilt from its rows in the order in which they are delivered. -/
theorem load_sides {rows : List OrderRow} (orders : model.orders = rows.map OrderRow.order)
    (read : ∀ row ∈ rows, row.order.row = row) (keys : (rows.map OrderRow.key).Nodup)
    (open_ : ∀ row ∈ rows, row.resdLots ≠ 0) (balance : ∀ row ∈ rows, row.resdLots + row.execLots = row.lots)
    (markets : ∀ row ∈ rows, row.marketId ∈ model.markets.map Prod.fst)
    (empty : ∀ x ∈ model.markets, x.2.bidSide = .empty ∧ x.2.offerSide = .empty) (capacity maxExecs : Nat) (now busDay : Int) :
    ∃ app', (App.make capacity maxExecs).load model now busDay = some app' ∧
      ∀ m s, app'.sideRows m s = (atSide m s rows).foldl (List.arrive OrderRow.rank) [] := by
  obtain ⟨app₀, loaded⟩ : ∃ app₀, app₀ = model.markets.foldl loadMarket (App.make capacity maxExecs) := ⟨_, rfl⟩
  have side : app₀.view.side = fun _ _ => .empty := by
    rw [loaded]
    refine loadMarkets_sides _ _ empty ?_
    funext m s
    cases s <;> rfl
  have sesss : app₀.sesss = ∅ := by
    rw [loaded, loadMarkets_rest]
    rfl
  have start : Loading [] app₀ :=
    .of_empty side (by funext a; simp only [App.view, App.sess, sesss]; rfl)
      (by funext a; simp only [App.view, App.sess, sesss]; rfl)
  obtain ⟨app₁, all, loading⟩ := start.loadOrders rows read (by rwa [List.nil_append]) open_ balance fun row member => by
    rw [loaded, loadMarkets_find]
    exact .inr (markets row member)
  obtain ⟨app', rest⟩ : ∃ app', app' = (model.posns busDay).foldl loadPosn
      (model.trades.foldl loadTrade ((model.execs (now - oneWeek)).foldl loadExec app₁)) := ⟨_, rfl⟩
  -- Executions, trades and positions are kept apart from the book.
  have execs := SameBook.foldl (f := loadExec) (fun _ _ => ⟨rfl, rfl⟩) (model.execs (now - oneWeek)) app₁
  have trades := SameBook.foldl (f := loadTrade) (fun _ _ => ⟨rfl, rfl⟩) model.trades
  have posns := SameBook.foldl (f := loadPosn) (fun _ _ => ⟨rfl, rfl⟩) (model.posns busDay)
  refine ⟨app', by rw [load, orders, ← loaded, all, rest], fun m s => ?_⟩
  rw [← List.nil_append rows, ← loading.sides, rest, ((execs.trans (trades _)).trans (posns _)).sideRows]

end Load

/-- Rows of one market, side and price come in the order of their ids. -/
def ById (rows : List OrderRow) : Prop :=
  rows.Pairwise fun row row' =>
    (row.marketId, row.side, row.ticks) = (row'.marketId, row'.side, row'.ticks) → row.id < row'.id

instance (rows : List OrderRow) : Decidable (ById rows) := by unfold ById; infer_instance

section Live

variable {m : Int} {s : Side} {row : OrderRow}

/-- Within a side, the rank of a row is its price. -/
theorem rank_iff {ticks : Int} (side : row.side = s) : row.rank = composeKey s ticks ↔ row.ticks = ticks := by
  rw [OrderRow.rank, side]
  exact (composeKey_injective s).eq_iff

theorem composeKey_surjective (s : Side) : Function.Surjective (composeKey s) := fun k => by
  cases s with
  | buy => exact ⟨-k, by simp [composeKey]⟩
  | sell => exact ⟨k, by simp [composeKey]⟩

/-- The rows of one price of a side. -/
theorem atPrice (m : Int) (s : Side) (ticks : Int) (rows : List OrderRow) :
    (rows.filter fun row => (row.marketId, row.side, row.ticks) = (m, s, ticks)) =
      (atSide m s rows).filter fun row => row.rank = composeKey s ticks := by
  rw [atSide, List.filter_filter]
  refine List.filter_congr fun row _ => ?_
  rw [← Bool.decide_and, decide_eq_decide, Prod.mk.injEq, Prod.mk.injEq]
  constructor
  · intro ⟨market, side, price⟩
    exact ⟨(rank_iff side).mpr price, market, side⟩
  · intro ⟨rank, market, side⟩
    exact ⟨market, side, (rank_iff side).mp rank⟩

/-- A market with an order exists. -/
theorem market_known {p : OrderPtr} (listed : p ∈ (app.view.side m s).orders) : (app.markets.find m).isSome := by
  cases found : app.markets.find m with
  | some _ => rfl
  | none =>
    have empty : app.view.side m s = .empty := by
      simp only [App.view, App.market, OrdMap.get, found]
      cases s <;> rfl
    rw [empty] at listed
    cases listed

theorem mem_sideRows (inv : app.Inv) (member : row ∈ app.sideRows m s) :
    row.marketId = m ∧ row.side = s ∧ row.order.row = row ∧ row.resdLots + row.execLots = row.lots ∧
      (app.markets.find row.marketId).isSome := by
  obtain ⟨p, listed, rfl⟩ := List.mem_map.mp member
  obtain ⟨market, side⟩ := inv.live.home listed
  have market : (app.order p).row.marketId = m := market
  exact ⟨market, side, Order.row_read _, inv.live.balance m s p listed, by rw [market]; exact market_known listed⟩

/-- The rows of live orders differ in their keys. -/
theorem sideRows_inj (inv : app.Inv) {n : Int} {t : Side} {row' : OrderRow} (member : row ∈ app.sideRows m s)
    (member' : row' ∈ app.sideRows n t) (same : row.key = row'.key) : row = row' := by
  obtain ⟨p, listed, rfl⟩ := List.mem_map.mp member
  obtain ⟨q, listed', rfl⟩ := List.mem_map.mp member'
  rw [inv.ids.unique p q (inv.live.present listed) (inv.live.present listed') same]

theorem sideRows_nodup (inv : app.Inv) (m : Int) (s : Side) : (app.sideRows m s).Nodup :=
  (inv.live.wf m s).nodup.map_on fun p listed q listed' same =>
    inv.ids.unique p q (inv.live.present listed) (inv.live.present listed') (congrArg OrderRow.key same)

theorem sideRows_sorted (inv : app.Inv) (m : Int) (s : Side) :
    (app.sideRows m s).Pairwise fun row row' => row.rank ≤ row'.rank :=
  List.pairwise_map.mpr (inv.live.wf m s).sorted

theorem sideRows_byId (inTime : app.view.InTime) (m : Int) (s : Side) :
    (app.sideRows m s).Pairwise fun row row' => row.ticks = row'.ticks → row.id < row'.id :=
  List.pairwise_map.mpr (inTime m s)

/-- Within one price, all rows are in the order of their ids. -/
theorem queue_byId (inv : app.Inv) (inTime : app.view.InTime) (m : Int) (s : Side) (ticks : Int) :
    ((app.sideRows m s).filter fun row => row.rank = composeKey s ticks).Pairwise fun row row' => row.id < row'.id := by
  refine ((sideRows_byId inTime m s).filter _).imp_of_mem fun {row row'} member member' before => before ?_
  have priced : ∀ row ∈ (app.sideRows m s).filter fun row => row.rank = composeKey s ticks, row.ticks = ticks :=
    fun row member => by
      obtain ⟨inside, rank⟩ := List.mem_filter.mp member
      exact (rank_iff (mem_sideRows inv inside).2.1).mp (of_decide_eq_true rank)
  rw [priced row member, priced row' member']

end Live

/-- A book that is rebuilt from the rows of live orders has the priority of the live one exactly when all of them have
positive open lots, as the statement asks, and the rows of one market, side and price are delivered in the order of their
ids. -/
theorem Delivers.samePriority_iff {ops : List Op} {rows : List OrderRow} {model : Model} {capacity maxExecs : Nat}
    (run : Run App.step (fun _ _ => True) (App.make capacity maxExecs) ops app) (delivers : Delivers app rows model)
    (capacity' maxExecs' : Nat) (now busDay : Int) :
    ∃ app', (App.make capacity' maxExecs').load model now busDay = some app' ∧
      (SamePriority app app' ↔ (∀ m s, ∀ row ∈ app.sideRows m s, 0 < row.resdLots) ∧ ById rows) := by
  have inv : app.Inv := (Inv.make capacity maxExecs).run run
  have inTime : app.view.InTime := (Inv.make capacity maxExecs).inTime_run (inTime_make capacity maxExecs) run
  have live : ∀ row ∈ rows, ∃ m s, row ∈ app.sideRows m s := fun row member => ((delivers.selected row).mp member).2
  obtain ⟨app', loaded, sides⟩ := load_sides delivers.orders
    (fun row member => by obtain ⟨m, s, inside⟩ := live row member; exact (mem_sideRows inv inside).2.2.1)
    (delivers.nodup.map_on fun row member row' member' same => by
      obtain ⟨m, s, inside⟩ := live row member
      obtain ⟨n, t, inside'⟩ := live row' member'
      exact sideRows_inj inv inside inside' same)
    (fun row member => ((delivers.selected row).mp member).1.ne')
    (fun row member => by obtain ⟨m, s, inside⟩ := live row member; exact (mem_sideRows inv inside).2.2.2.1)
    (fun row member => by
      obtain ⟨m, s, inside⟩ := live row member
      exact delivers.markets _ (mem_sideRows inv inside).2.2.2.2)
    delivers.empty capacity' maxExecs' now busDay
  refine ⟨app', loaded, ?_, ?_⟩
  · intro same
    have arrived : ∀ m s, (atSide m s rows).foldl (List.arrive OrderRow.rank) [] = app.sideRows m s := fun m s =>
      (sides m s).symm.trans (same.rows m s)
    refine ⟨fun m s row member => ?_, List.pairwise_class.mpr fun ⟨m, s, ticks⟩ => ?_⟩
    · rw [← arrived, List.mem_foldl_arrive] at member
      have inside := (List.mem_filter.mp (member.resolve_left List.not_mem_nil)).1
      exact ((delivers.selected row).mp inside).1
    · -- The rows of a price are those of the live side, in its sequence.
      have queue := congrArg (List.filter fun row => row.rank = composeKey s ticks) (arrived m s)
      rw [List.foldl_arrive_filter .nil, List.filter_nil, List.nil_append, ← atPrice] at queue
      rw [queue]
      exact queue_byId inv inTime m s ticks
  · intro ⟨positive, byId⟩
    refine .of_rows fun m s => ?_
    rw [sides]
    refine List.sorted_ext (List.foldl_arrive_sorted .nil _) (sideRows_sorted inv m s) fun k => ?_
    rw [List.foldl_arrive_filter .nil, List.filter_nil, List.nil_append]
    obtain ⟨ticks, rfl⟩ := composeKey_surjective s k
    -- Both queues hold the same rows, by id.
    refine List.Perm.eq_of_pairwise
      (fun row row' _ _ (before : row.id < row'.id) after => absurd before (lt_asymm after)) ?_ ?_ ?_
    · rw [← atPrice]
      exact List.pairwise_class.mp byId (m, s, ticks)
    · exact queue_byId inv inTime m s ticks
    · refine List.Perm.filter _ ((List.perm_ext_iff_of_nodup (delivers.nodup.filter _) (sideRows_nodup inv m s)).mpr ?_)
      intro row
      rw [List.mem_filter, decide_eq_true_eq, delivers.selected]
      constructor
      · intro ⟨⟨_, n, t, inside⟩, market, side⟩
        obtain ⟨own, ownSide, -⟩ := mem_sideRows inv inside
        rwa [← market, ← side, own, ownSide]
      · intro inside
        obtain ⟨market, side, -⟩ := mem_sideRows inv inside
        exact ⟨⟨positive m s row inside, m, s, inside⟩, market, side⟩

end App

end Swirly
