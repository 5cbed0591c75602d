import Mathlib
import Swirly.Lob.App

/-!
# The engine as functions of accounts and markets

`App.view` reads the containers of the engine as total functions: a market or a session that does not exist is
an empty one.  Making a session or an empty position is not visible in the view, and neither is the position
that a trade is stamped with when it is committed.  Each update of the engine is an update of the view.
-/

namespace Swirly

/-- The execution without its stamp. -/
def Exec.unstamped (e : Exec) : Exec := e.posn 0 0

/-- Replace the side `s` of the market `m`. -/
def setSide (side : Int → Side → MarketSide) (m : Int) (s : Side) (x : MarketSide) : Int → Side → MarketSide :=
  fun n t => if n = m ∧ t = s then x else side n t

section SetSide

variable {side : Int → Side → MarketSide} {m n : Int} {s t : Side} {x : MarketSide}

@[simp] theorem setSide_self : setSide side m s x m s = x := if_pos ⟨rfl, rfl⟩

theorem setSide_other (differ : ¬ (n = m ∧ t = s)) : setSide side m s x n t = side n t := if_neg differ

theorem setSide_same (same : x = side m s) : setSide side m s x = side := by
  funext n t
  by_cases here : n = m ∧ t = s
  · rw [here.1, here.2, setSide_self, same]
  · exact setSide_other here

theorem setSide_setSide (y : MarketSide) : setSide (setSide side m s x) m s y = setSide side m s y := by
  funext n t
  by_cases here : n = m ∧ t = s
  · rw [here.1, here.2, setSide_self, setSide_self]
  · rw [setSide_other here, setSide_other here, setSide_other here]

end SetSide

structure View where
  mq : MsgQueue
  maxExecs : Nat
  heap : Heap
  side : Int → Side → MarketSide
  maxId : Int → Int
  /-- The last trade: lots, ticks and time. -/
  last : Int → Int × Int × Int
  /-- Instrument, settlement day and state. -/
  terms : Int → Symbol × Int × Nat
  orders : Symbol → OrdMap IdKey OrderPtr
  refs : Symbol → OrdMap Bytes OrderPtr
  history : Symbol → List ExecPtr
  trades : Symbol → OrdMap IdKey ExecPtr
  posn : Symbol → Int → Posn
  reports : Store Exec

namespace View

open Function

variable (v : View)

def report (e : ExecPtr) : Exec := v.reports.get e

def allocId (m : Int) : View := { v with maxId := update v.maxId m (v.maxId m + 1) }

def newOrder (o : Order) : View := { v with heap := v.heap.newOrder o }

def newExec (e : Exec) : View := { v with reports := v.reports.alloc e.unstamped }

def pushExec (a : Symbol) (e : ExecPtr) : View :=
  { v with history := update v.history a ((e :: v.history a).take v.maxExecs) }

def insertOrder (a : Symbol) (p : OrderPtr) (o : Order) : View :=
  { v with
    orders := update v.orders a ((v.orders a).insert o.key p)
    refs := if o.ref.isEmpty then v.refs else update v.refs a ((v.refs a).insert o.ref.data p) }

def removeOrder (a : Symbol) (o : Order) : View :=
  { v with
    orders := update v.orders a ((v.orders a).erase o.key)
    refs := if o.ref.isEmpty then v.refs else update v.refs a ((v.refs a).erase o.ref.data) }

def removeTrade (a : Symbol) (key : IdKey) : View := { v with trades := update v.trades a ((v.trades a).erase key) }

/-- The report `e` becomes a trade of the account `a` in the market `m`. -/
def fileTrade (a : Symbol) (m : Int) (e : ExecPtr) : View :=
  let trade := v.report e
  { v.pushExec a e with
    trades := update v.trades a ((v.trades a).insert trade.key e)
    posn := update v.posn a (update (v.posn a) m ((v.posn a m).addTrade trade.side trade.lastLots trade.lastTicks)) }

def setSide (m : Int) (s : Side) (h : Heap) (x : MarketSide) : View :=
  { v with heap := h, side := Swirly.setSide v.side m s x }

def setLast (m : Int) (lots : Int) (ticks : Int) (time : Int) : View :=
  { v with last := update v.last m (lots, ticks, time) }

/-! What an update leaves alone. -/

section

variable (a : Symbol) (o : Order)

@[simp] theorem mq_removeOrder : (v.removeOrder a o).mq = v.mq := rfl
@[simp] theorem heap_removeOrder : (v.removeOrder a o).heap = v.heap := rfl
@[simp] theorem side_removeOrder : (v.removeOrder a o).side = v.side := rfl
@[simp] theorem maxId_removeOrder : (v.removeOrder a o).maxId = v.maxId := rfl
@[simp] theorem last_removeOrder : (v.removeOrder a o).last = v.last := rfl
@[simp] theorem terms_removeOrder : (v.removeOrder a o).terms = v.terms := rfl
@[simp] theorem history_removeOrder : (v.removeOrder a o).history = v.history := rfl
@[simp] theorem trades_removeOrder : (v.removeOrder a o).trades = v.trades := rfl
@[simp] theorem posn_removeOrder : (v.removeOrder a o).posn = v.posn := rfl
@[simp] theorem reports_removeOrder : (v.removeOrder a o).reports = v.reports := rfl

end

section

variable (a : Symbol) (m : Int) (e : ExecPtr)

@[simp] theorem mq_fileTrade : (v.fileTrade a m e).mq = v.mq := rfl
@[simp] theorem heap_fileTrade : (v.fileTrade a m e).heap = v.heap := rfl
@[simp] theorem side_fileTrade : (v.fileTrade a m e).side = v.side := rfl
@[simp] theorem maxId_fileTrade : (v.fileTrade a m e).maxId = v.maxId := rfl
@[simp] theorem last_fileTrade : (v.fileTrade a m e).last = v.last := rfl
@[simp] theorem terms_fileTrade : (v.fileTrade a m e).terms = v.terms := rfl
@[simp] theorem orders_fileTrade : (v.fileTrade a m e).orders = v.orders := rfl
@[simp] theorem refs_fileTrade : (v.fileTrade a m e).refs = v.refs := rfl
@[simp] theorem reports_fileTrade : (v.fileTrade a m e).reports = v.reports := rfl

end

section

variable (m lots ticks time : Int)

@[simp] theorem mq_setLast : (v.setLast m lots ticks time).mq = v.mq := rfl
@[simp] theorem heap_setLast : (v.setLast m lots ticks time).heap = v.heap := rfl
@[simp] theorem side_setLast : (v.setLast m lots ticks time).side = v.side := rfl
@[simp] theorem maxId_setLast : (v.setLast m lots ticks time).maxId = v.maxId := rfl
@[simp] theorem terms_setLast : (v.setLast m lots ticks time).terms = v.terms := rfl
@[simp] theorem orders_setLast : (v.setLast m lots ticks time).orders = v.orders := rfl
@[simp] theorem refs_setLast : (v.setLast m lots ticks time).refs = v.refs := rfl
@[simp] theorem history_setLast : (v.setLast m lots ticks time).history = v.history := rfl
@[simp] theorem trades_setLast : (v.setLast m lots ticks time).trades = v.trades := rfl
@[simp] theorem posn_setLast : (v.setLast m lots ticks time).posn = v.posn := rfl
@[simp] theorem reports_setLast : (v.setLast m lots ticks time).reports = v.reports := rfl

end

section

variable (a : Symbol) (e : ExecPtr)

@[simp] theorem mq_pushExec : (v.pushExec a e).mq = v.mq := rfl
@[simp] theorem heap_pushExec : (v.pushExec a e).heap = v.heap := rfl
@[simp] theorem side_pushExec : (v.pushExec a e).side = v.side := rfl
@[simp] theorem maxId_pushExec : (v.pushExec a e).maxId = v.maxId := rfl
@[simp] theorem last_pushExec : (v.pushExec a e).last = v.last := rfl
@[simp] theorem terms_pushExec : (v.pushExec a e).terms = v.terms := rfl
@[simp] theorem orders_pushExec : (v.pushExec a e).orders = v.orders := rfl
@[simp] theorem refs_pushExec : (v.pushExec a e).refs = v.refs := rfl
@[simp] theorem trades_pushExec : (v.pushExec a e).trades = v.trades := rfl
@[simp] theorem posn_pushExec : (v.pushExec a e).posn = v.posn := rfl
@[simp] theorem reports_pushExec : (v.pushExec a e).reports = v.reports := rfl

end

end View

namespace App

open Function

def view (app : App) : View where
  mq := app.mq
  maxExecs := app.maxExecs
  heap := app.heap
  side m := (app.market m).side
  maxId m := (app.market m).maxId
  last m := ((app.market m).lastLots, (app.market m).lastTicks, (app.market m).lastTime)
  terms m := ((app.market m).instr, (app.market m).settlDay, (app.market m).state)
  orders a := (app.sess a).orders
  refs a := (app.sess a).refIdx
  history a := (app.sess a).execs
  trades a := (app.sess a).trades
  posn a m := (app.sess a).posn m
  reports := app.execs.map Exec.unstamped

variable {app app' : App}

theorem report_view (e : ExecPtr) : app.view.report e = (app.exec e).unstamped :=
  OrdMap.get_map Exec.unstamped app.execs e rfl

/-- Views agree when the accessors do. -/
theorem view_congr (mq : app'.mq = app.mq) (maxExecs : app'.maxExecs = app.maxExecs) (heap : app'.heap = app.heap)
    (market : ∀ m, app'.market m = app.market m)
    (sess : ∀ a, (app'.sess a).orders = (app.sess a).orders ∧ (app'.sess a).refIdx = (app.sess a).refIdx ∧
      (app'.sess a).execs = (app.sess a).execs ∧ (app'.sess a).trades = (app.sess a).trades ∧
      ∀ m, (app'.sess a).posn m = (app.sess a).posn m)
    (reports : app'.execs.map Exec.unstamped = app.execs.map Exec.unstamped) : app'.view = app.view := by
  have orders := fun a => (sess a).1
  have refs := fun a => (sess a).2.1
  have history := fun a => (sess a).2.2.1
  have trades := fun a => (sess a).2.2.2.1
  have posn := fun a => (sess a).2.2.2.2
  simp only [view, mq, maxExecs, heap, market, orders, refs, history, trades, posn, reports]

theorem sess_setSess (a b : Symbol) (s : Sess) : (app.setSess a s).sess b = if b = a then s else app.sess b :=
  OrdMap.get_put _ _ _ _

theorem market_setMarket (m n : Int) (k : Market) :
    (app.setMarket m k).market n = if n = m then k else app.market n :=
  OrdMap.get_put _ _ _ _

@[simp] theorem view_setMq (mq : MsgQueue) : ({ app with mq } : App).view = { app.view with mq } := rfl

@[simp] theorem view_scratch (ms : List Match) (es : List ExecPtr) :
    ({ app with matches_ := ms, execs_ := es } : App).view = app.view := rfl

@[simp] theorem view_clearScratch : app.clearScratch.view = app.view := rfl

@[simp] theorem view_newOrder (o : Order) : (app.newOrder o).2.view = app.view.newOrder o := rfl

@[simp] theorem view_setHeap (heap : Heap) : ({ app with heap } : App).view = { app.view with heap } := rfl

@[simp] theorem view_newExec (e : Exec) : (app.newExec e).2.view = app.view.newExec e := by
  simp only [view, newExec, View.newExec, OrdMap.map_alloc]
  rfl

/-- Stamping an execution is not visible. -/
theorem view_stampPosn {e : ExecPtr} (present : (app.execs.find e).isSome) (posn : PosnPtr) :
    (app.stampPosn e posn).view = app.view := by
  have reports : (app.stampPosn e posn).execs.map Exec.unstamped = app.execs.map Exec.unstamped :=
    OrdMap.map_put_same _ (OrdMap.find_eq_some_get present) rfl
  exact view_congr rfl rfl rfl (fun _ => rfl) (fun _ => ⟨rfl, rfl, rfl, rfl, fun _ => rfl⟩) reports

theorem find_stampPosn {e : ExecPtr} (present : (app.execs.find e).isSome) (posn : PosnPtr) (d : ExecPtr) :
    ((app.stampPosn e posn).execs.find d).isSome = (app.execs.find d).isSome := by
  simp only [stampPosn, OrdMap.find_put]
  split
  next same => rw [same, present]; rfl
  next => rfl

@[simp] theorem sess_ensureSess (app : App) (a b : Symbol) : (app.ensureSess a).sess b = app.sess b := by
  simp only [sess, ensureSess, OrdMap.get, OrdMap.find_insert]
  split
  next same =>
    rw [same]
    cases app.sesss.find a <;> rfl
  next => rfl

@[simp] theorem view_ensureSess (a : Symbol) : (app.ensureSess a).view = app.view :=
  view_congr rfl rfl rfl (fun _ => rfl) (fun b => by simp) rfl

theorem view_setMarket (m : Int) (k : Market) :
    (app.setMarket m k).view =
      { app.view with
        side := update app.view.side m k.side
        maxId := update app.view.maxId m k.maxId
        last := update app.view.last m (k.lastLots, k.lastTicks, k.lastTime)
        terms := update app.view.terms m (k.instr, k.settlDay, k.state) } := by
  have fields : ∀ n, ((app.setMarket m k).market n).side = update app.view.side m k.side n ∧
      ((app.setMarket m k).market n).maxId = update app.view.maxId m k.maxId n ∧
      (((app.setMarket m k).market n).lastLots, ((app.setMarket m k).market n).lastTicks,
        ((app.setMarket m k).market n).lastTime) = update app.view.last m (k.lastLots, k.lastTicks, k.lastTime) n ∧
      (((app.setMarket m k).market n).instr, ((app.setMarket m k).market n).settlDay,
        ((app.setMarket m k).market n).state) = update app.view.terms m (k.instr, k.settlDay, k.state) n := by
    intro n
    simp only [market_setMarket, update_apply]
    split
    next => exact ⟨rfl, rfl, rfl, rfl⟩
    next => exact ⟨rfl, rfl, rfl, rfl⟩
  simp only [view, fields]
  rfl

/-- Updates at one market that keep the parts they do not name. -/
theorem view_setMarket_eq {m : Int} {k : Market} {v : View} (side : v.side = update app.view.side m k.side)
    (maxId : v.maxId = update app.view.maxId m k.maxId)
    (last : v.last = update app.view.last m (k.lastLots, k.lastTicks, k.lastTime))
    (terms : v.terms = update app.view.terms m (k.instr, k.settlDay, k.state))
    (others : { app.view with side := v.side, maxId := v.maxId, last := v.last, terms := v.terms } = v) :
    (app.setMarket m k).view = v := by
  rw [view_setMarket, ← side, ← maxId, ← last, ← terms, others]

@[simp] theorem view_allocId (m : Int) : (app.allocId m).2.view = app.view.allocId m := by
  apply view_setMarket_eq
  · exact (update_eq_self m _).symm
  · rfl
  · exact (update_eq_self m _).symm
  · exact (update_eq_self m _).symm
  · rfl

theorem view_setSess (a : Symbol) (s : Sess) :
    (app.setSess a s).view =
      { app.view with
        orders := update app.view.orders a s.orders
        refs := update app.view.refs a s.refIdx
        history := update app.view.history a s.execs
        trades := update app.view.trades a s.trades
        posn := update app.view.posn a s.posn } := by
  have fields : ∀ b, ((app.setSess a s).sess b).orders = update app.view.orders a s.orders b ∧
      ((app.setSess a s).sess b).refIdx = update app.view.refs a s.refIdx b ∧
      ((app.setSess a s).sess b).execs = update app.view.history a s.execs b ∧
      ((app.setSess a s).sess b).trades = update app.view.trades a s.trades b ∧
      ((app.setSess a s).sess b).posn = update app.view.posn a s.posn b := by
    intro b
    simp only [sess_setSess, update_apply]
    split
    next => exact ⟨rfl, rfl, rfl, rfl, rfl⟩
    next => exact ⟨rfl, rfl, rfl, rfl, rfl⟩
  have posn : ∀ b m, ((app.setSess a s).sess b).posn m = update app.view.posn a s.posn b m :=
    fun b m => congrFun (fields b).2.2.2.2 m
  simp only [view, posn, fields]
  rfl

/-- Updates at one account that keep the parts they do not name. -/
theorem view_setSess_eq {a : Symbol} {s : Sess} {v : View}
    (orders : v.orders = update app.view.orders a s.orders) (refs : v.refs = update app.view.refs a s.refIdx)
    (history : v.history = update app.view.history a s.execs) (trades : v.trades = update app.view.trades a s.trades)
    (posn : v.posn = update app.view.posn a s.posn)
    (others : { app.view with
      orders := v.orders, refs := v.refs, history := v.history, trades := v.trades, posn := v.posn } = v) :
    (app.setSess a s).view = v := by
  rw [view_setSess, ← orders, ← refs, ← history, ← trades, ← posn, others]

@[simp] theorem view_ensurePosn (a : Symbol) (m : Int) : (app.ensurePosn a m).view = app.view := by
  have posn : ((app.sess a).ensurePosn m).posn = (app.sess a).posn := by
    funext n
    simp only [Sess.posn, Sess.ensurePosn, OrdMap.get, OrdMap.find_insert]
    split
    next same =>
      rw [same]
      cases (app.sess a).posns.find m <;> rfl
    next => rfl
  apply view_setSess_eq
  · exact (update_eq_self a _).symm
  · exact (update_eq_self a _).symm
  · exact (update_eq_self a _).symm
  · exact (update_eq_self a _).symm
  · rw [posn]; exact (update_eq_self a _).symm
  · rfl

@[simp] theorem view_pushExecFront (a : Symbol) (e : ExecPtr) :
    (app.pushExecFront a e).view = app.view.pushExec a e := by
  apply view_setSess_eq
  · exact (update_eq_self a _).symm
  · exact (update_eq_self a _).symm
  · rfl
  · exact (update_eq_self a _).symm
  · exact (update_eq_self a _).symm
  · rfl

@[simp] theorem view_insertOrder (a : Symbol) (p : OrderPtr) (o : Order) :
    (app.setSess a ((app.sess a).insertOrder p o)).view = app.view.insertOrder a p o := by
  apply view_setSess_eq
  · rfl
  · simp only [View.insertOrder, Sess.insertOrder]
    split
    next => exact (update_eq_self a _).symm
    next => rfl
  · exact (update_eq_self a _).symm
  · exact (update_eq_self a _).symm
  · exact (update_eq_self a _).symm
  · rfl

@[simp] theorem view_removeOrder (a : Symbol) (o : Order) :
    (app.setSess a ((app.sess a).removeOrder o)).view = app.view.removeOrder a o := by
  apply view_setSess_eq
  · rfl
  · simp only [View.removeOrder, Sess.removeOrder]
    split
    next => exact (update_eq_self a _).symm
    next => rfl
  · exact (update_eq_self a _).symm
  · exact (update_eq_self a _).symm
  · exact (update_eq_self a _).symm
  · rfl

@[simp] theorem view_removeTrade (a : Symbol) (key : IdKey) :
    (app.removeTrade a key).view = app.view.removeTrade a key := by
  apply view_setSess_eq
  · exact (update_eq_self a _).symm
  · exact (update_eq_self a _).symm
  · exact (update_eq_self a _).symm
  · rfl
  · exact (update_eq_self a _).symm
  · rfl

@[simp] theorem view_fileTrade (a : Symbol) (m : Int) (e : ExecPtr) :
    (app.fileTrade a m e).view = app.view.fileTrade a m e := by
  apply view_setSess_eq
  · exact (update_eq_self a _).symm
  · exact (update_eq_self a _).symm
  · rfl
  · simp only [View.fileTrade, report_view]; rfl
  · simp only [View.fileTrade, report_view]
    congr 1
    funext n
    rw [update_apply]
    exact (OrdMap.get_put _ _ _ _).symm
  · rfl

/-! ## Operations of a market -/

variable {m : Int} {p : OrderPtr}

theorem onMarket_onSide (f : Heap → MarketSide → Option (Heap × MarketSide)) :
    (app.onMarket m fun h k => k.onSide h p f) =
      (f app.heap (app.view.side m (app.order p).side)).map fun (h, x) =>
        { app with heap := h }.setMarket m ((app.market m).setSide (app.order p).side x) := by
  simp only [onMarket, Market.onSide, Option.map_map]
  rfl

theorem setSide_eq_update (side : Int → Side → MarketSide) (m : Int) (s : Side) (x : MarketSide) :
    Swirly.setSide side m s x = update side m (update (side m) s x) := by
  funext n t
  cases eq_or_ne n m with
  | inr differ => rw [setSide_other fun both => differ both.1, update_of_ne differ]
  | inl same =>
    subst same
    rw [update_self, update_apply]
    split
    next here => rw [here, setSide_self]
    next there => exact setSide_other fun both => there both.2

theorem side_setSide (k : Market) (s : Side) (x : MarketSide) : (k.setSide s x).side = update k.side s x := by
  funext t
  rw [update_apply]
  split
  next here => rw [here, Market.side_setSide_self]
  next there => exact Market.side_setSide_ne _ _ _ there

theorem view_setSide (s : Side) (h : Heap) (x : MarketSide) :
    ({ app with heap := h }.setMarket m ((app.market m).setSide s x)).view = app.view.setSide m s h x := by
  apply view_setMarket_eq
  · rw [side_setSide]
    exact setSide_eq_update _ m s x
  · cases s <;> exact (update_eq_self m _).symm
  · cases s <;> exact (update_eq_self m _).symm
  · cases s <;> exact (update_eq_self m _).symm
  · rfl

theorem view_setLast (lots ticks time : Int) :
    (app.setMarket m { app.market m with lastLots := lots, lastTicks := ticks, lastTime := time }).view =
      app.view.setLast m lots ticks time := by
  apply view_setMarket_eq
  · exact (update_eq_self m _).symm
  · exact (update_eq_self m _).symm
  · rfl
  · exact (update_eq_self m _).symm
  · rfl

end App

end Swirly
