import Swirly.Verified.App.Create

/-!
# Revising and cancelling

A change takes place on the side of the order, whichever market the call names: if that is another market, the
change of an order that stays open goes through, and the removal of one that does not faults.
-/

namespace Swirly

open Function MarketSide

namespace App

namespace Change

variable {change : Change} {side : Side} {h : Heap} {s x : MarketSide} {p : OrderPtr} {now : Int} {o : Order}

/-- What becomes of the order. -/
def apply : Change → Order → Int → Order
  | revise lots, o, now => o.revise lots now
  | cancel, o, now => o.cancel now

/-- The order keeps open lots. -/
def Stays : Change → Order → Prop
  | revise lots, o => o.lots - lots < o.resdLots
  | cancel, _ => False

instance (change : Change) (o : Order) : Decidable (change.Stays o) :=
  match change with
  | revise lots => inferInstanceAs (Decidable (o.lots - lots < o.resdLots))
  | cancel => inferInstanceAs (Decidable False)

/-- What the commit phase needs of the checks: no revision is below the lots that are executed. -/
def Fits : Change → Order → Prop
  | revise lots, o => o.execLots ≤ lots
  | cancel, _ => True

def onSide (h : Heap) (s : MarketSide) (p : OrderPtr) (now : Int) : Change → Option (Heap × MarketSide)
  | revise lots => s.reviseOrder h p lots now
  | cancel => s.cancelOrder h p now

theorem onMarket_eq (change : Change) (h : Heap) (market : Market) (p : OrderPtr) (now : Int) :
    change.onMarket h market p now = market.onSide h p fun h s => change.onSide h s p now := by
  cases change <;> rfl

/-- A revision takes lots away, but no executed ones. -/
theorem bounds_of_check {lots : Int} (checked : (revise lots).check o = none) : o.execLots ≤ lots ∧ lots ≤ o.lots := by
  simp only [check, reject] at checked
  split at checked
  next => cases checked
  next =>
    split at checked
    next => cases checked
    next valid => omega

theorem fits_of_check (checked : change.check o = none) : change.Fits o := by
  cases change with
  | cancel => trivial
  | revise lots => exact (bounds_of_check checked).1

theorem apply_same (change : Change) (o : Order) (now : Int) : (change.apply o now).Same o := by
  cases change <;> exact ⟨rfl, rfl, rfl, rfl, rfl, rfl⟩

/-- A change that is made twice. -/
theorem apply_apply (change : Change) (o : Order) (level : Option LevelPtr) (now : Int) :
    change.apply { change.apply o now with level } now = { change.apply o now with level } := by
  cases change with
  | cancel => rfl
  | revise lots =>
    simp only [apply, Order.revise, Order.mk.injEq, true_and, and_true]
    omega

theorem stays_iff (fits : change.Fits o) (balance : o.resdLots + o.execLots = o.lots) :
    change.Stays o ↔ (change.apply o now).resdLots ≠ 0 := by
  cases change with
  | cancel => exact ⟨False.elim, fun nonzero => nonzero rfl⟩
  | revise lots =>
    have fits : o.execLots ≤ lots := fits
    show o.lots - lots < o.resdLots ↔ o.resdLots - (o.lots - lots) ≠ 0
    omega

theorem balance (balance : o.resdLots + o.execLots = o.lots) (stays : change.Stays o) :
    (change.apply o now).resdLots + (change.apply o now).execLots = (change.apply o now).lots := by
  cases change with
  | cancel => exact stays.elim
  | revise lots =>
    show o.resdLots - (o.lots - lots) + o.execLots = lots
    omega

theorem onSide_spec (wf : WF side h s) (member : p ∈ s.orders) (change : Change) (now : Int) :
    ∃ h' s', change.onSide h s p now = some (h', s') ∧
      Shrunk side h s p (change.Stays (h.order p)) (change.apply (h.order p) now) h' s' := by
  cases change with
  | revise lots => exact reviseOrder_spec wf member lots now
  | cancel => exact cancelOrder_spec wf member now

/-- On any side, the level of an order that stays open is reduced. -/
theorem onSide_stays (wf : WF side h s) (member : p ∈ s.orders)
    (stays : change.Stays (h.order p)) (now : Int) :
    ∃ h', change.onSide h x p now = some (h', x) ∧
      Shrunk side h s p (change.Stays (h.order p)) (change.apply (h.order p) now) h' s := by
  cases change with
  | cancel => exact stays.elim
  | revise lots =>
    obtain ⟨lp, linked, found⟩ := wf.pointer p member
    have open_ : (h.order p).lots - lots < (h.order p).resdLots := stays
    obtain ⟨h', reduced⟩ : ∃ h', h' = (h.setLevel lp ((h.level lp).reduce ((h.order p).lots - lots))).setOrder p
      ((h.order p).revise lots now) := ⟨_, rfl⟩
    refine ⟨h', ?_, ?_⟩
    · simp only [onSide, MarketSide.reviseOrder, linked, reduceLevel]
      rw [if_pos open_, reduced]
      rfl
    · exact
        { wf := by rw [reduced]; exact reduce_wf wf member linked rfl rfl rfl rfl
          frame := by
            rw [reduced]
            exact (Heap.frame_setLevel h _ ⟨_, found⟩).trans (Heap.frame_setOrder _ p _)
          live := by rw [reduced]; simp [Heap.setOrder]
          stay := fun _ => ⟨rfl, by rw [reduced]; exact Heap.order_setOrder_self _ _ _⟩
          leave := fun closed => absurd stays closed }

/-- An order cannot be removed from a side that does not list it. -/
theorem onSide_none (wf : WF side h s) (member : p ∈ s.orders) (elsewhere : p ∉ x.orders)
    (closes : ¬ change.Stays (h.order p)) (now : Int) : change.onSide h x p now = none := by
  obtain ⟨lp, linked, -⟩ := wf.pointer p member
  have stuck : removeFromLevel h x lp p = none := if_pos elsewhere
  cases change with
  | cancel => simp only [onSide, MarketSide.cancelOrder, linked, stuck, Option.map_none]
  | revise lots =>
    have closes : ¬ (h.order p).lots - lots < (h.order p).resdLots := closes
    simp only [onSide, MarketSide.reviseOrder, linked, reduceLevel]
    rw [if_neg closes, stuck, Option.map_none]

end Change

/-- The commit phase of one change. -/
structure Changed (change : Change) (now : Int) (p : OrderPtr) (e : ExecPtr) (v v' : View) : Prop where
  live : v.Live
  step : ∃ h x,
    Shrinks v (v.heap.order p).marketId (v.heap.order p).side p (change.Stays (v.heap.order p))
      (change.apply (v.heap.order p) now) h x ∧
    v' = (v.shrink (v.heap.order p).marketId (v.heap.order p).side p h x).pushExec (v.heap.order p).accnt e

variable {app app' : App} {a : Symbol} {m now : Int} {change : Change} {p : OrderPtr} {e : ExecPtr}

/-- The order is in the book, for this account. -/
structure Held (app : App) (a : Symbol) (p : OrderPtr) : Prop where
  accnt : (app.order p).accnt = a
  member : p ∈ (app.view.side (app.order p).marketId (app.order p).side).orders

theorem onMarket_change {h : Heap} {x : MarketSide}
    (done : change.onSide app.heap (app.view.side m (app.order p).side) p now = some (h, x)) :
    ∃ app', (app.onMarket m fun h market => change.onMarket h market p now) = some app' ∧
      app'.view = app.view.setSide m (app.order p).side h x ∧ app'.execs = app.execs ∧ app'.matches_ = app.matches_ ∧
      app'.execs_ = app.execs_ := by
  refine ⟨{ app with heap := h }.setMarket m ((app.market m).setSide (app.order p).side x), ?_, view_setSide _ _ _, rfl,
    rfl, rfl⟩
  simp only [Change.onMarket_eq]
  rw [onMarket_onSide, done]
  rfl

theorem commitChange_spec (live : app.view.Live) (held : app.Held a p) (fits : change.Fits (app.order p))
    (here : (app.order p).marketId = m ∨ change.Stays (app.order p)) (e : ExecPtr) (now : Int) :
    ∃ app', app.commitChange a m change p e now = some app' ∧ Changed change now p e app.view app'.view ∧
      app'.execs = app.execs ∧ app'.matches_ = app.matches_ ∧ app'.execs_ = app.execs_ := by
  obtain ⟨o, current⟩ : ∃ o, o = app.order p := ⟨_, rfl⟩
  have wf := live.wf o.marketId o.side
  have member : p ∈ (app.view.side o.marketId o.side).orders := current ▸ held.member
  have order : app.heap.order p = o := current.symm
  -- Either way, only the side of the order itself can change.
  obtain ⟨h, x, app₁, first, view₁, execs₁, matches₁, pointers₁, shrunk⟩ : ∃ h x app₁,
      (app.onMarket m fun h market => change.onMarket h market p now) = some app₁ ∧
      app₁.view = app.view.setSide o.marketId o.side h x ∧ app₁.execs = app.execs ∧ app₁.matches_ = app.matches_ ∧
      app₁.execs_ = app.execs_ ∧
      Shrunk o.side app.heap (app.view.side o.marketId o.side) p (change.Stays o) (change.apply o now) h x := by
    by_cases same : o.marketId = m
    · obtain ⟨h, x, done, shrunk⟩ := change.onSide_spec wf member now
      rw [show app.view.heap = app.heap from rfl, order] at shrunk
      rw [same, current] at done
      obtain ⟨app₁, first, view₁, rest⟩ := onMarket_change done
      refine ⟨h, x, app₁, first, ?_, rest.1, rest.2.1, rest.2.2, shrunk⟩
      rw [view₁, same, current]
    · have stays : change.Stays o := by rw [current] at same ⊢; exact here.resolve_left same
      obtain ⟨h, done, shrunk⟩ := Change.onSide_stays (x := app.view.side m (app.order p).side) wf member
        (order ▸ stays) now
      rw [show app.view.heap = app.heap from rfl, order] at shrunk
      obtain ⟨app₁, first, view₁, rest⟩ := onMarket_change done
      refine ⟨h, app.view.side o.marketId o.side, app₁, first, ?_, rest.1, rest.2.1, rest.2.2, shrunk⟩
      rw [view₁, View.setSide, setSide_same rfl, View.setSide, setSide_same rfl]
  have balance := live.balance _ _ p member
  rw [show app.view.heap.order p = o from order] at balance
  have fits : change.Fits o := current ▸ fits
  have shrinks : Shrinks app.view o.marketId o.side p (change.Stays o) (change.apply o now) h x :=
    { member
      shrunk
      same := by rw [show app.view.heap.order p = o from order]; exact change.apply_same o now
      balance := Change.balance balance
      stays_iff := Change.stays_iff fits balance }
  have same := shrinks.same_order
  rw [show app.view.heap.order p = o from order] at same
  have order₁ : app₁.order p = h.order p := congrArg (fun v : View => v.heap.order p) view₁
  have leaves : change.leaves (app₁.order p) = (h.order p).done := by
    cases change with
    | revise lots => rw [order₁]; rfl
    | cancel => exact (shrinks.done_iff.mpr id).symm
  have accnt : a = (h.order p).accnt := by rw [same.accnt, current, held.accnt]
  refine ⟨_, by simp only [commitChange, first]; rfl, ?_, ?_, ?_, ?_⟩
  · refine ⟨live, h, x, ?_, ?_⟩
    · rw [show app.view.heap.order p = o from order]
      exact shrinks
    · rw [show app.view.heap.order p = o from order, view_pushExecFront, leaves, View.shrink, ← same.accnt, ← accnt]
      split
      next => rw [view_removeOrder, view₁, order₁]
      next => rw [view₁]
  · rw [← execs₁]
    split <;> rfl
  · rw [← matches₁]
    split <;> rfl
  · rw [← pointers₁]
    split <;> rfl

/-- The removal of an order through another market. -/
theorem commitChange_none (live : app.view.Live) (held : app.Held a p) (elsewhere : (app.order p).marketId ≠ m)
    (closes : ¬ change.Stays (app.order p)) (e : ExecPtr) (now : Int) :
    app.commitChange a m change p e now = none := by
  have outside : p ∉ (app.view.side m (app.order p).side).orders := fun inside =>
    elsewhere (live.home_unique inside held.member).1
  have stuck : change.onSide app.heap (app.view.side m (app.order p).side) p now = none :=
    Change.onSide_none (live.wf _ _) held.member outside closes now
  simp only [commitChange, Change.onMarket_eq]
  rw [onMarket_onSide, stuck]
  rfl

namespace Changed

variable {v v' : View}

theorem order (changed : Changed change now p e v v') :
    ∃ level, v'.heap.order p = { change.apply (v.heap.order p) now with level } := by
  obtain ⟨-, h, x, shrinks, rfl⟩ := changed
  simpa using shrinks.order

theorem order_ne (changed : Changed change now p e v v') {q : OrderPtr} (differ : q ≠ p) :
    v'.heap.order q = v.heap.order q := by
  obtain ⟨-, h, x, shrinks, rfl⟩ := changed
  simpa using shrinks.order_ne differ

theorem next (changed : Changed change now p e v v') : v'.Live := by
  obtain ⟨live, h, x, shrinks, rfl⟩ := changed
  simpa using shrinks.live live

theorem complete (changed : Changed change now p e v v') (complete : v.Complete) : v'.Complete := by
  obtain ⟨live, h, x, shrinks, rfl⟩ := changed
  simpa using shrinks.complete live complete

theorem kept (changed : Changed change now p e v v') : Heap.Kept v.heap v'.heap := by
  obtain ⟨live, h, x, shrinks, rfl⟩ := changed
  simpa using shrinks.kept live

theorem maxId (changed : Changed change now p e v v') : v'.maxId = v.maxId := by
  obtain ⟨-, h, x, -, rfl⟩ := changed
  simp

/-- The order leaves the index of its account when it does not stay open. -/
theorem find_orders (changed : Changed change now p e v v') {a : Symbol} {k : IdKey} {q : OrderPtr} :
    (v'.orders a).find k = some q ↔ (v.orders a).find k = some q ∧ (q = p → change.Stays (v.heap.order p)) := by
  obtain ⟨live, h, x, shrinks, rfl⟩ := changed
  rw [View.orders_pushExec, shrinks.find_orders live, shrinks.stays_iff]

theorem mq (changed : Changed change now p e v v') : v'.mq = v.mq := by
  obtain ⟨-, h, x, -, rfl⟩ := changed
  simp

/-- The order leaves the book when it does not stay open. -/
theorem sublist (changed : Changed change now p e v v') (n : Int) (t : Side) :
    (v'.side n t).orders.Sublist (v.side n t).orders := by
  obtain ⟨-, h, x, shrinks, rfl⟩ := changed
  simpa using shrinks.sublist n t

theorem mem_orders (changed : Changed change now p e v v') {n : Int} {t : Side} {q : OrderPtr} :
    q ∈ (v'.side n t).orders ↔ q ∈ (v.side n t).orders ∧ (q = p → change.Stays (v.heap.order p)) := by
  obtain ⟨live, h, x, shrinks, rfl⟩ := changed
  rw [View.side_pushExec, shrinks.mem_orders live, shrinks.stays_iff]

end Changed

/-- Reports have been made, with the next ids of the market. -/
structure Reported (app : App) (m : Int) (es : List Exec) (app' : App) : Prop where
  view : app'.view = { app.view with
    maxId := update app.view.maxId m (app.view.maxId m + es.length)
    reports := app.view.reports.allocs es }
  execs : app'.execs = app.execs.allocs es
  matches_ : app'.matches_ = app.matches_
  execs_ : app'.execs_ = app.execs_

namespace Reported

theorem nil (app : App) (m : Int) : Reported app m [] app where
  view := by simp
  execs := rfl
  matches_ := rfl
  execs_ := rfl

theorem one (app : App) (m : Int) {x : Exec} (unstamped : x.unstamped = x) :
    Reported app m [x] ((app.allocId m).2.newExec x).2 where
  view := by
    rw [view_newExec, view_allocId, View.newExec, unstamped]
    rfl
  execs := rfl
  matches_ := rfl
  execs_ := rfl

theorem trans {app'' : App} {es ds : List Exec} (first : Reported app m es app') (second : Reported app' m ds app'') :
    Reported app m (es ++ ds) app'' where
  view := by
    rw [second.view, first.view]
    simp only [update_self, update_idem, OrdMap.allocs_append, List.length_append]
    congr 2
    push_cast
    omega
  execs := by rw [second.execs, first.execs, OrdMap.allocs_append]
  matches_ := second.matches_.trans first.matches_
  execs_ := second.execs_.trans first.execs_

theorem heap {es : List Exec} (reported : Reported app m es app') : app'.heap = app.heap :=
  congrArg (fun v : View => v.heap) reported.view

/-- Releasing the reports leaves only their ids used. -/
theorem release {es : List Exec} (inv : app.Inv) (reported : Reported app m es app') :
    Restored app m (app.view.maxId m + es.length)
      (app'.releaseExecs ((List.range es.length).map (app.execs.fresh + ·))) :=
  .release es reported.view reported.execs (reported.matches_.trans inv.matches_) (reported.execs_.trans inv.execs_)

end Reported

theorem Change.report_unstamped (change : Change) (o : Order) (id now : Int) :
    (change.report (.make o id now)).unstamped = change.report (.make o id now) := by
  cases change <;> rfl

/-- The report of the change of one order. -/
def reportOf (app : App) (m : Int) (change : Change) (p : OrderPtr) (now : Int) : Exec :=
  change.report (.make (app.order p) (app.view.maxId m + 1) now)

/-- How `revise_order` and `cancel_order` end for an order that the session holds. -/
inductive Ended (app : App) (m : Int) (change : Change) (p : OrderPtr) (now : Int) : Outcome Response → Prop
  | rejected {e : Exception} (checked : change.check (app.order p) = some e) : Ended app m change p now (.throw e app)
  | unjournaled {app' : App} (checked : change.check (app.order p) = none)
      (full : app.mq.createExec (app.reportOf m change p now) = none)
      (restored : Restored app m (app.view.maxId m + 1) app') :
      Ended app m change p now (.throw .insufficientQueueCapacity app')
  | committed {resp : Response} {app' : App} {mq : MsgQueue} (checked : change.check (app.order p) = none)
      (journal : app.mq.createExec (app.reportOf m change p now) = some mq)
      (changed : Changed change now p app.execs.fresh { app.view with
        mq
        maxId := update app.view.maxId m (app.view.maxId m + 1)
        reports := app.view.reports.alloc (app.reportOf m change p now) } app'.view)
      (matches_ : app'.matches_ = []) (execs_ : app'.execs_ = [])
      (execs : app'.execs = app.execs.alloc (app.reportOf m change p now))
      (response : resp = ((Response.empty.setMarket m).insertOrder p).insertExec app.execs.fresh) :
      Ended app m change p now (.ok resp app')
  | fault (checked : change.check (app.order p) = none) (elsewhere : (app.order p).marketId ≠ m)
      (closes : ¬ change.Stays (app.order p)) : Ended app m change p now .fault

/-- The exec of a change is made before the queue is asked. -/
theorem changeOrder_checked {app₁ : App} (checked : change.check (app.order p) = none)
    (made : app₁ = ((app.allocId m).2.newExec (app.reportOf m change p now)).2) :
    app.changeOrder a m change p now =
      match app.mq.createExec (app₁.exec app.execs.fresh) with
      | none => .throw .insufficientQueueCapacity (app₁.releaseExecs [app.execs.fresh])
      | some mq =>
        match { app₁ with mq }.commitChange a m change p app.execs.fresh now with
        | none => .fault
        | some app' => .ok (((Response.empty.setMarket m).insertOrder p).insertExec app.execs.fresh) app' := by
  rw [changeOrder, checked, made]
  rfl

theorem changeOrder_spec (inv : app.Inv) (held : app.Held a p) (m : Int) (change : Change) (now : Int) :
    Ended app m change p now (app.changeOrder a m change p now) := by
  cases checked : change.check (app.order p) with
  | some e =>
    rw [changeOrder, checked]
    exact .rejected checked
  | none =>
    have fits := Change.fits_of_check checked
    obtain ⟨app₁, made⟩ : ∃ app₁, app₁ = ((app.allocId m).2.newExec (app.reportOf m change p now)).2 := ⟨_, rfl⟩
    have reported : Reported app m [app.reportOf m change p now] app₁ := by
      rw [made]
      exact .one app m (change.report_unstamped _ _ _)
    have exec₁ : app₁.exec app.execs.fresh = app.reportOf m change p now := by
      simp only [exec, reported.execs]
      exact OrdMap.get_put_self _ _ _
    rw [changeOrder_checked checked made, exec₁]
    cases posted : app.mq.createExec (app.reportOf m change p now) with
    | none => exact .unjournaled checked posted (reported.release inv)
    | some mq =>
      obtain ⟨app₂, journaled⟩ : ∃ app₂ : App, app₂ = { app₁ with mq } := ⟨_, rfl⟩
      have view₂ : app₂.view = { app.view with
          mq
          maxId := update app.view.maxId m (app.view.maxId m + 1)
          reports := app.view.reports.alloc (app.reportOf m change p now) } := by
        rw [journaled, view_setMq, reported.view]
        rfl
      have order₂ : app₂.order p = app.order p := by rw [journaled, App.order, App.order, ← reported.heap]
      have live₂ : app₂.view.Live := by rw [view₂]; exact inv.live
      have held₂ : app₂.Held a p := ⟨by rw [order₂, held.accnt], by rw [order₂, view₂]; exact held.member⟩
      simp only [← journaled]
      by_cases here : (app.order p).marketId = m ∨ change.Stays (app.order p)
      · obtain ⟨app₃, committed, changed, execs₃, matches₃, pointers₃⟩ := commitChange_spec (m := m) live₂ held₂
          (by rw [order₂]; exact fits) (by rw [order₂]; exact here) app.execs.fresh now
        rw [committed]
        refine .committed checked posted (view₂ ▸ changed) ?_ ?_ ?_ rfl
        · rw [matches₃, journaled]
          exact reported.matches_.trans inv.matches_
        · rw [pointers₃, journaled]
          exact reported.execs_.trans inv.execs_
        · rw [execs₃, journaled]
          exact reported.execs
      · obtain ⟨elsewhere, closes⟩ := not_or.mp here
        rw [commitChange_none live₂ held₂ (by rw [order₂]; exact elsewhere) (by rw [order₂]; exact closes)]
        exact .fault checked elsewhere closes

end App

end Swirly
