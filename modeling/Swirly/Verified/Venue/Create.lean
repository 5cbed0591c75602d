import Swirly.Verified.Told
import Swirly.Verified.Venue.Abstraction

/-!
# New orders in the exchange

A call of `create_order` does to the venue what the venue's own arrival of an order does: the same checks, the same
deals, the same answer.
-/

namespace Swirly

open Function MarketSide

/-- The fill as the venue sees it. -/
def Fill.toDeal (h : Heap) (f : Fill) : Venue.Deal :=
  { maker := (h.order f.maker).unlinked, lots := f.lots, sums := f.sums, makerId := f.makerId }

theorem Order.unlinked_of_none {o : Order} (unlinked : o.level = none) : o.unlinked = o := by
  rw [Order.unlinked, ← unlinked]

/-! ## The same deals -/

theorem Venue.Deal.number_fills (h : Heap) (sums : App.Sums) (id : Int) (e : ExecPtr) (xs : List (OrderPtr × Int)) :
    number sums id (xs.map fun x => ((h.order x.1).unlinked, x.2)) = (Fill.number h sums id e xs).map (Fill.toDeal h) := by
  induction xs generalizing sums id e with
  | nil => rfl
  | cons x xs inductionHypothesis =>
    obtain ⟨q, lots⟩ := x
    rw [Fill.number_cons, List.map_cons, List.map_cons, ← inductionHypothesis]
    rfl

theorem offers_venue {v : View} {terms : Int → Option (Symbol × Int × Nat)} (m : Int) (o : Order) :
    (v.venue terms).offers m o =
      (offers v.heap o (App.direct o) (v.side m o.side.opposite).orders).map fun x => ((v.heap.order x.1).unlinked, x.2) := by
  rw [Venue.offers, offers, List.map_map]
  simp only [View.venue, List.takeWhile_map, List.map_map]
  rfl

namespace App

variable {app app' : App} {a : Symbol} {m now : Int} {o : Order} {ref : Bytes} {side : Side} {lots ticks minLots busDay : Int}
  {terms : Symbol × Int × Nat}

theorem deals_venue (new : New app a m o) : app.venue.deals m o = (app.incomingFills m o).map (Fill.toDeal app.heap) := by
  have offered : app.venue.offers m o = _ := offers_venue m o
  rw [Venue.deals, offered, Greedy.fill_map fun q => (app.view.heap.order q).unlinked, incomingFills, fillsOf, new.id]
  exact Venue.Deal.number_fills _ _ _ _ _

theorem dealt_deals (h : Heap) (fs : List Fill) : o.dealt now (fs.map (Fill.toDeal h)) = filled o now fs := by
  cases fs with
  | nil => rfl
  | cons f fs =>
    simp only [Order.dealt, filled, Fill.final, List.map_cons, List.getLast?_cons, List.getLast?_map, Fill.toDeal]
    cases fs.getLast? <;> rfl

theorem execs_deals (h : Heap) (fs : List Fill) :
    ((fs.map (Fill.toDeal h)).flatMap fun d => d.execs o now) = fs.flatMap (Fill.execs h o now) := by
  rw [List.flatMap_map]
  rfl

/-! ## The same checks -/

theorem refTaken_venue (inv : app.Inv) (filed : app.view.RefsFiled) :
    app.venue.RefTaken a ref ↔ ref ≠ [] ∧ (app.sess a).exists ref = true := by
  constructor
  · rintro ⟨n, taken⟩
    rw [venue, View.findRef_venue inv.live filed, Option.isSome_map] at taken
    obtain ⟨p, found⟩ := Option.isSome_iff_exists.mp taken
    have inIndex := (Option.filter_eq_some_iff.mp found).1
    exact ⟨(inv.live.refs a ref p inIndex).1, by rw [Sess.exists, show (app.sess a).refIdx.find ref = some p from inIndex]; rfl⟩
  · rintro ⟨-, taken⟩
    obtain ⟨p, inIndex⟩ := Option.isSome_iff_exists.mp taken
    refine ⟨(app.order p).marketId, ?_⟩
    rw [venue, View.findRef_venue inv.live filed, Option.isSome_map,
      show (app.view.refs a).find ref = some p from inIndex, Option.isSome_iff_exists]
    exact ⟨p, Option.filter_eq_some_iff.mpr ⟨rfl, decide_eq_true rfl⟩⟩

theorem market_of_terms (known : app.terms m = some terms) :
    (app.market m).instr = terms.1 ∧ (app.market m).settlDay = terms.2.1 ∧ (app.market m).state = terms.2.2 := by
  obtain ⟨k, found, rfl⟩ := Option.map_eq_some_iff.mp known
  rw [market, OrdMap.get_of_find found]
  exact ⟨rfl, rfl, rfl⟩

theorem admission_venue (inv : app.Inv) (filed : app.view.RefsFiled) (known : app.terms m = some terms) :
    app.venue.admission a terms ref lots minLots busDay = app.admission a m ref lots minLots busDay := by
  obtain ⟨instr, settlDay, -⟩ := market_of_terms known
  simp only [Venue.admission, admission, refTaken_venue inv filed, instr, settlDay]

theorem incoming_venue (known : app.terms m = some terms) :
    Order.make a m terms.1 terms.2.1 (app.venue.maxId m + 1) ref side lots ticks minLots now =
      app.incoming a m ref side lots ticks minLots now := by
  obtain ⟨instr, settlDay, -⟩ := market_of_terms known
  rw [incoming, instr, settlDay]
  rfl

/-! ## The same commits -/

section Opened

variable {fs : List Fill} {v : View} {listed : Int → Option (Symbol × Int × Nat)}

/-- Where the order enters the book. -/
theorem Placed.book (listed : Int → Option (Symbol × Int × Nat)) (inv : app.Inv) (new : New app a m o) (placed : Placed app a m o now fs v.heap v.side)
    (n : Int)
    (t : Side) : (v.venue listed).book n t = ((app.view.venue listed).enter m (filled o now fs)).book n t := by
  obtain ⟨lp, order⟩ := placed.order
  have ownSide : (filled o now fs).side = o.side := filled_same.side
  have unlinked : (filled o now fs).unlinked = filled o now fs :=
    Order.unlinked_of_none (filled_level.trans new.unlinked)
  have old : ∀ n t, ∀ q ∈ (app.view.side n t).orders, q ≠ app.heap.orders.fresh := fun n t q member =>
    OrdMap.ne_fresh (inv.live.present member)
  have contents : ∀ n t, ((app.view.side n t).orders.map fun q => (v.heap.order q).unlinked) =
      (app.view.venue listed).book n t := fun n t =>
    List.map_congr_left fun q member => by rw [placed.order_ne (old n t q member)]; rfl
  have outside : ∀ n t, app.heap.orders.fresh ∉ (app.view.side n t).orders := fun n t member => old n t _ member rfl
  by_cases done : (filled o now fs).done = true
  · -- A done order is not in the book.
    have resdLots : (filled o now fs).resdLots = 0 := of_decide_eq_true done
    have same : (v.side n t).orders = (app.view.side n t).orders := by
      by_cases here : n = m ∧ t = o.side
      · obtain ⟨rfl, rfl⟩ := here
        refine placed.arranged.resolve_right fun arranged => ?_
        have member : app.heap.orders.fresh ∈ (v.side n o.side).orders := by
          rw [arranged]
          exact mem_ordersWith.mpr (.inl rfl)
        exact ((placed.listed _ _ _).mp member).elim (outside _ _) fun new => new.2.2.2 resdLots
      · rw [placed.untouched n t here]
    rw [Venue.enter, if_pos done, ← contents, ← same]
    rfl
  · have resdLots : (filled o now fs).resdLots ≠ 0 := fun zero => done (decide_eq_true zero)
    rw [Venue.enter, if_neg done, Venue.setBook, ownSide]
    by_cases here : n = m ∧ t = o.side
    · obtain ⟨rfl, rfl⟩ := here
      have arranged := placed.arranged.resolve_left fun same => outside n o.side <| by
        rw [← same]
        exact (placed.listed _ _ _).mpr (.inr ⟨rfl, rfl, rfl, resdLots⟩)
      have content : ∀ q ∈ app.heap.orders.fresh :: (app.view.side n o.side).orders,
          ((app.heap.newOrder (filled o now fs)).order q).Same (v.heap.order q).unlinked := by
        refine List.forall_mem_cons.mpr ⟨?_, fun q member => ?_⟩
        · rw [Heap.order_newOrder_self, order]
          exact ⟨rfl, rfl, rfl, rfl, rfl, rfl⟩
        · rw [Heap.order_newOrder_ne _ _ (old _ _ q member), placed.order_ne (old _ _ q member)]
          exact ⟨rfl, rfl, rfl, rfl, rfl, rfl⟩
      have keys : List.arrive (app.heap.newOrder (filled o now fs)).key (app.view.side n o.side).orders app.heap.orders.fresh =
          List.arrive ((fun o : Order => composeKey o.side o.ticks) ∘ fun q => (v.heap.order q).unlinked)
            (app.view.side n o.side).orders app.heap.orders.fresh :=
        List.arrive_congr fun q member => by
          simp only [Heap.key, (content q member).side, (content q member).ticks]
          rfl
      have moved : (List.arrive ((fun o : Order => composeKey o.side o.ticks) ∘ fun q => (v.heap.order q).unlinked)
          (app.view.side n o.side).orders app.heap.orders.fresh).map (fun q => (v.heap.order q).unlinked) = _ :=
        List.map_arrive (fun q => (v.heap.order q).unlinked) (app.view.side n o.side).orders app.heap.orders.fresh
      simp only [update_self]
      rw [← contents n o.side]
      have fresh : (v.heap.order app.heap.orders.fresh).unlinked = filled o now fs := by
        rw [order, Order.unlinked_level, unlinked]
      rw [fresh] at moved
      rw [← moved, ← keys]
      simp only [View.venue]
      rw [arranged]
      rfl
    · have elsewhere : update (app.view.venue listed).book m (update ((app.view.venue listed).book m) o.side
          (List.arrive (fun o => composeKey o.side o.ticks) ((app.view.venue listed).book m o.side) (filled o now fs))) n t =
            (app.view.venue listed).book n t := by
        rw [update_apply]
        split
        next sameMarket => rw [update_of_ne fun sameSide => here ⟨sameMarket, sameSide⟩, sameMarket]
        next => rfl
      refine Eq.trans ?_ elsewhere.symm
      rw [← contents, ← placed.untouched n t here]
      rfl

/-- The venue at the start of the commit loop. -/
theorem Opened.venue (listed : Int → Option (Symbol × Int × Nat)) (inv : app.Inv) (reported : app.view.Reported) (new : New app a m o)
    (opened : Opened app a m o now fs v) :
    v.venue listed =
      ({ (app.view.venue listed).burn m (1 + 2 * fs.length) with mq := v.mq }.enter m (filled o now fs)).push a
        (.make o o.id now) := by
  obtain ⟨base, prepared⟩ : ∃ base : View, base = { app.view with
      mq := v.mq, heap := v.heap, side := v.side
      maxId := update app.view.maxId m (app.view.maxId m + 1 + 2 * fs.length)
      orders := openedOrders app a o now fs, refs := openedRefs app a o now fs } := ⟨_, rfl⟩
  obtain ⟨reports, all⟩ : ∃ reports, reports = Exec.make o o.id now :: fs.flatMap (Fill.execs app.heap o now) := ⟨_, rfl⟩
  have pushed : v = View.pushExec { base with reports := base.reports.allocs reports } a app.execs.fresh := by
    rw [prepared, all]
    exact opened.view
  have first : (View.report { base with reports := base.reports.allocs reports } app.execs.fresh) = .make o o.id now := by
    have fresh : base.reports.fresh = app.execs.fresh := by rw [prepared]; exact OrdMap.fresh_map _ app.execs
    have found := OrdMap.find_allocs_fresh base.reports reports (show reports[0]? = some (Exec.make o o.id now) by rw [all]; rfl)
    rw [Nat.add_zero, fresh] at found
    exact OrdMap.get_of_find found
  have reportedBase : base.Reported := by
    rw [prepared]
    exact ⟨reported.history, reported.trades⟩
  have entered : base.venue listed =
      { (app.view.venue listed).burn m (1 + 2 * fs.length) with mq := v.mq }.enter m (filled o now fs) := by
    have books : ∀ n t, (base.venue listed).book n t = ((app.view.venue listed).enter m (filled o now fs)).book n t := by
      intro n t
      have book := opened.placed.book listed inv new n t
      rw [← book, prepared]
      rfl
    have maxId : base.maxId = update app.view.maxId m (app.view.maxId m + (1 + 2 * fs.length : Nat)) := by
      rw [prepared]
      push_cast
      rw [add_assoc]
    have fields : base.venue listed = { (app.view.venue listed).burn m (1 + 2 * fs.length) with
        mq := v.mq, book := ((app.view.venue listed).enter m (filled o now fs)).book } := by
      rw [show ((app.view.venue listed).enter m (filled o now fs)).book = (base.venue listed).book from
        (funext fun n => funext fun t => books n t).symm, Venue.burn,
        show update (app.view.venue listed).maxId m ((app.view.venue listed).maxId m + (1 + 2 * fs.length : Nat)) = base.maxId
          from maxId.symm]
      rw [prepared]
      rfl
    rw [fields, Venue.enter, Venue.enter]
    split <;> rfl
  rw [pushed, View.venue_pushExec, View.venue_allocs listed reportedBase, entered, first, ← pushed]

end Opened

end App

/-- The commit loop settles the deals. -/
theorem Commits.venue {a : Symbol} {m now : Int} {o : Order} {h : Heap} {fs : List Fill} {v v' : View}
    (listed : Int → Option (Symbol × Int × Nat))
    (commits : Commits a m o.side.opposite now (fs.map fun f => f.toMatch h m) v v') (accnt : o.accnt = a) (ids : v.Ids)
    (same : ∀ f ∈ fs, (v.heap.order f.maker).Same (h.order f.maker))
    (reports : ∀ f ∈ fs, v.report f.makerTrade = f.makerExec h o now ∧ v.report (f.makerTrade + 1) = f.takerExec h o now) :
    v'.venue listed = (fs.map (Fill.toDeal h)).foldl (fun w d => w.settle m o now d) (v.venue listed) := by
  induction fs generalizing v with
  | nil =>
    cases commits
    rfl
  | cons f fs inductionHypothesis =>
    rw [List.map_cons] at commits ⊢
    rw [List.foldl_cons]
    cases commits with
    | @cons _ _ _ v₁ _ first rest =>
      obtain ⟨sameFirst, sameRest⟩ := List.forall_mem_cons.mp same
      obtain ⟨⟨makerReport, takerReport⟩, reportsRest⟩ := List.forall_mem_cons.mp reports
      have kept := first.kept
      have settled : v₁.venue listed = (v.venue listed).settle m o now (f.toDeal h) := by
        obtain ⟨live, h', x, shrinks, rfl⟩ := first
        have maker : (f.toMatch h m).makerOrder = f.maker := rfl
        have ticks : (v.heap.order f.maker).ticks = (h.order f.maker).ticks := sameFirst.ticks
        have shrunk := shrinks.venue (f := fun o => o.trade f.lots (h.order f.maker).ticks now) listed live ids (by
          rw [maker, ticks]
          rfl)
        rw [View.venue_fileTrade, View.venue_fileTrade, View.venue_setLast, shrunk]
        simp only [View.report, View.reports_fileTrade, View.reports_setLast, View.reports_shrink]
        rw [show v.reports.get (f.toMatch h m).makerTrade = f.makerExec h o now from makerReport,
          show v.reports.get (f.toMatch h m).takerTrade = f.takerExec h o now from takerReport, maker, sameFirst.id,
          sameFirst.accnt, ticks, ← accnt]
        rfl
      rw [← settled]
      refine inductionHypothesis rest (Ids.kept ids kept fun n => by rw [first.maxId]) (fun g member => ?_) fun g member => ?_
      · exact (kept.same _).trans (sameRest g member)
      · rw [View.report, View.report, first.reports]
        exact reportsRest g member

namespace App

variable {app app' : App} {a : Symbol} {m now : Int} {o : Order} {ref : Bytes} {side : Side} {lots ticks minLots busDay : Int}
  {terms : Symbol × Int × Nat} {v : View}

/-- Where the reports of the call are. -/
theorem Opened.reports (opened : Opened app a m o now (app.incomingFills m o) v) :
    v.report app.execs.fresh = .make o o.id now ∧ ∀ f ∈ app.incomingFills m o,
      v.report f.makerTrade = f.makerExec app.heap o now ∧ v.report (f.makerTrade + 1) = f.takerExec app.heap o now := by
  have reports : v.reports = app.view.reports.allocs (newReports app o now (app.incomingFills m o)) := by
    rw [opened.view]
    rfl
  have read := OrdMap.map_get_allocs app.view.reports (newReports app o now (app.incomingFills m o))
  have addresses := incoming_trades app m o now
  rw [newAddresses] at addresses
  rw [show app.view.reports.fresh = app.execs.fresh from OrdMap.fresh_map _ app.execs, addresses, ← reports, List.map_cons,
    newReports] at read
  obtain ⟨first, trades⟩ := List.cons.inj read
  exact ⟨first, Fill.exec_trades trades⟩

/-- The makers of the caller, and what the caller is told. -/
theorem told_deals (h : Heap) (fs : List Fill) (accnt : o.accnt = a) {report : ExecPtr → Exec}
    (reports : ∀ f ∈ fs, report f.makerTrade = f.makerExec h o now ∧ report (f.makerTrade + 1) = f.takerExec h o now) :
    (fs.flatMap (Fill.told h a)).map report = (fs.map (Fill.toDeal h)).flatMap fun d => d.told o now := by
  rw [List.map_flatMap, List.flatMap_map]
  refine List.flatMap_congr fun f member => ?_
  obtain ⟨maker, taker⟩ := reports f member
  rw [Fill.told, Venue.Deal.told, accnt, show (f.toDeal h).maker.accnt = (h.order f.maker).accnt from rfl]
  by_cases own : (h.order f.maker).accnt = a
  · rw [if_pos own, if_pos own, Fill.trades, List.map_cons, List.map_singleton, maker, taker]
    rfl
  · rw [if_neg own, if_neg own, List.map_singleton, taker]
    rfl

theorem createOrder_venue (settled : app.Settled) (filed : app.view.RefsFiled) (known : app.terms m = some terms)
    (kept : ∀ last, (app.createOrder a m ref side lots ticks minLots now busDay).state = some last → last.terms = app.terms) :
    ((app.createOrder a m ref side lots ticks minLots now busDay).map .response).seen =
      some (app.venue.createOrder a m terms ref side lots ticks minLots now busDay) := by
  have created := createOrder_spec settled.inv a m ref side lots ticks minLots now busDay
  obtain ⟨o, incoming⟩ : ∃ o, o = app.incoming a m ref side lots ticks minLots now := ⟨_, rfl⟩
  have new : New app a m o := incoming ▸ incoming_new
  obtain ⟨fs, fills⟩ : ∃ fs, fs = app.incomingFills m o := ⟨_, rfl⟩
  rw [← incoming] at created
  rw [Venue.createOrder, admission_venue settled.inv filed known, incoming_venue known, ← incoming]
  simp only [deals_venue new, List.length_map, execs_deals, dealt_deals, ← fills]
  cases outcome : app.createOrder a m ref side lots ticks minLots now busDay with
  | fault =>
    rw [outcome] at created
    cases created
  | throw e last =>
    have terms := kept last (by rw [outcome]; rfl)
    rw [outcome] at created
    cases created with
    | rejected checked =>
      rw [checked]
      rfl
    | unjournaled checked full restored =>
      rw [← fills] at full restored
      rw [checked, Outcome.map, Outcome.seen, venue, terms, restored.view]
      simp only
      rw [show app.venue.mq = app.mq from rfl, show app.mq.createExecs
        (Exec.make o o.id now :: fs.flatMap (Fill.execs app.heap o now)) = none from full, Venue.burn]
      simp only
      congr 4
      push_cast
      rw [← add_assoc]
      rfl
  | ok resp last =>
    have terms := kept last (by rw [outcome]; rfl)
    rw [outcome] at created
    cases created with
    | @committed _ _ v checked opened commits matches_ execs_ ledger response =>
      obtain ⟨first, reports⟩ := opened.reports
      have maker : ∀ f ∈ fs, f.maker ∈ app.makers m o := fun f member => (mem_fillsOf (fills ▸ member)).1
      have differ : ∀ f ∈ fs, f.maker ≠ app.heap.orders.fresh := fun f member =>
        OrdMap.ne_fresh (settled.inv.live.present (maker f member))
      have old : ∀ f ∈ fs, v.heap.order f.maker = app.heap.order f.maker := fun f member =>
        opened.placed.order_ne (differ f member)
      have live : v.Live := by
        rw [opened.view]
        exact opened.placed.live
      have unique : v.Ids := by
        have grown : Ids (app.heap.newOrder o) v.maxId := by
          refine settled.inv.ids.newOrder ?_ (by rw [new.id, new.marketId]) ?_
          · rw [opened.view]
            exact grown_update (by omega)
          · rw [opened.view, new.marketId, new.id]
            simp only [update_self]
            omega
        exact grown.kept opened.placed.kept fun n => le_rfl
      have start := opened.venue app.terms settled.inv settled.reported new
      rw [← fills] at opened commits reports start response
      have next := commits.venue app.terms new.accnt unique (fun f member => by rw [old f member]; exact .refl _) reports
      obtain ⟨mq, posted⟩ : ∃ mq, mq = v.mq := ⟨_, rfl⟩
      have journal : app.venue.mq.createExecs (Exec.make o o.id now :: fs.flatMap (Fill.execs app.heap o now)) = some v.mq :=
        opened.journal
      have reached : last.venue = ({ app.venue.burn m (1 + 2 * fs.length) with mq := v.mq }.accept m o now
          (fs.map (Fill.toDeal app.heap))) := by
        rw [venue, terms, next, start, Venue.accept, dealt_deals, new.accnt]
        rfl
      -- The answer, part by part.
      have nodup : ((fs.map fun f => f.toMatch app.heap m).map Match.makerOrder).Nodup := by
        rw [List.map_map, fills]
        exact fillsOf_nodup (settled.inv.live.wf m _).nodup
      have taker : (last.order app.heap.orders.fresh).unlinked = filled o now fs := by
        obtain ⟨lp, order⟩ := opened.placed.order
        have untouched : last.view.heap.order app.heap.orders.fresh = v.heap.order app.heap.orders.fresh := by
          refine commits.order_ne fun member => ?_
          rw [List.map_map] at member
          obtain ⟨f, inside, same⟩ := List.mem_map.mp member
          exact differ f inside same
        rw [App.order, show last.heap.order _ = _ from untouched, order, Order.unlinked_level,
          Order.unlinked_of_none (filled_level.trans new.unlinked)]
      have makers : (Fill.ownMakers app.heap a fs).map (fun q => (last.order q).unlinked) =
          (((fs.map (Fill.toDeal app.heap)).filter fun d => d.maker.accnt = a).map fun d => d.traded now) := by
        rw [Fill.ownMakers, List.filter_map, List.filter_map, List.map_map, List.map_map]
        refine List.map_congr_left fun f member => ?_
        have inside := List.mem_of_mem_filter member
        obtain ⟨level, order⟩ := commits.order nodup (List.mem_map_of_mem inside)
        have maker : (f.toMatch app.heap m).makerOrder = f.maker := rfl
        rw [maker, old f inside] at order
        show (last.heap.order f.maker).unlinked = _
        rw [show last.heap.order f.maker = _ from order]
        rfl
      have told : (app.execs.fresh :: fs.flatMap (Fill.told app.heap a)).map last.view.report =
          Exec.make o o.id now :: (fs.map (Fill.toDeal app.heap)).flatMap fun d => d.told o now := by
        have same : last.view.report = v.report := by
          funext e
          rw [View.report, View.report, commits.reports]
        rw [List.map_cons, same, first, told_deals app.heap fs new.accnt reports]
      rw [checked, Outcome.map, Outcome.seen, response, createdResponse_eq, journal, reached]
      simp only [answer, List.map_cons, taker, makers]
      rw [← List.map_cons, told, ← reached]
      cases fs <;> rfl

end App

end Swirly
