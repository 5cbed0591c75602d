import Swirly.Verified.Reload.Book

/-!
# The engine after a load

An engine that has been loaded meets the invariant of its calls, with the counters and the markets that were delivered.
-/

namespace Swirly

open Function MarketSide

namespace App

variable {app app' : App} {model : Model}

/-- A part of the load that leaves the books alone. -/
structure Aside (app app' : App) : Prop where
  mq : app'.mq = app.mq
  heap : app'.heap = app.heap
  markets : app'.markets = app.markets
  orders : app'.view.orders = app.view.orders
  refs : app'.view.refs = app.view.refs
  matches_ : app'.matches_ = app.matches_
  execs_ : app'.execs_ = app.execs_

theorem Aside.inv (aside : Aside app app') (inv : app.Inv) : app'.Inv := by
  have heap : app'.view.heap = app.view.heap := aside.heap
  have market : app'.market = app.market := by
    funext m
    rw [App.market, aside.markets, ← App.market]
  have side : app'.view.side = app.view.side := by
    funext m
    exact congrArg Market.side (congrFun market m)
  have maxId : app'.view.maxId = app.view.maxId := by
    funext m
    exact congrArg Market.maxId (congrFun market m)
  exact
    { live := by
        rw [View.Live, heap, side, aside.orders, aside.refs]
        exact inv.live
      complete := by
        rw [View.Complete, heap, side]
        exact inv.complete
      ids := by
        rw [View.Ids, heap, maxId]
        exact inv.ids
      matches_ := aside.matches_.trans inv.matches_
      execs_ := aside.execs_.trans inv.execs_ }

theorem Aside.trans {app'' : App} (first : Aside app app') (second : Aside app' app'') : Aside app app'' where
  mq := second.mq.trans first.mq
  heap := second.heap.trans first.heap
  markets := second.markets.trans first.markets
  orders := second.orders.trans first.orders
  refs := second.refs.trans first.refs
  matches_ := second.matches_.trans first.matches_
  execs_ := second.execs_.trans first.execs_

theorem Aside.foldl {α : Type} {f : App → α → App} (step : ∀ app x, Aside app (f app x)) (xs : List α) (app : App) :
    Aside app (xs.foldl f app) := by
  induction xs generalizing app with
  | nil => exact ⟨rfl, rfl, rfl, rfl, rfl, rfl, rfl⟩
  | cons x xs inductionHypothesis => exact (step app x).trans (inductionHypothesis (f app x))

/-- An update of a session that keeps its orders. -/
theorem aside_setSess {a : Symbol} {s : Sess} (orders : s.orders = (app.sess a).orders) (refs : s.refIdx = (app.sess a).refIdx) :
    Aside app (app.setSess a s) where
  mq := rfl
  heap := rfl
  markets := rfl
  orders := by
    funext b
    show ((app.setSess a s).sess b).orders = (app.sess b).orders
    rw [sess_setSess]
    split
    next here => rw [here, orders]
    next => rfl
  refs := by
    funext b
    show ((app.setSess a s).sess b).refIdx = (app.sess b).refIdx
    rw [sess_setSess]
    split
    next here => rw [here, refs]
    next => rfl
  matches_ := rfl
  execs_ := rfl

theorem aside_ensureSess (a : Symbol) : Aside app (app.ensureSess a) where
  mq := rfl
  heap := rfl
  markets := rfl
  orders := congrArg View.orders (view_ensureSess a)
  refs := congrArg View.refs (view_ensureSess a)
  matches_ := rfl
  execs_ := rfl

theorem aside_newExec (e : Exec) : Aside app (app.newExec e).2 := ⟨rfl, rfl, rfl, rfl, rfl, rfl, rfl⟩

theorem aside_loadExec (e : Exec) : Aside app (app.loadExec e) :=
  ((aside_ensureSess e.accnt).trans (aside_newExec e)).trans (aside_setSess rfl rfl)

theorem aside_loadTrade (e : Exec) : Aside app (app.loadTrade e) :=
  ((aside_ensureSess e.accnt).trans (aside_newExec e)).trans (aside_setSess rfl rfl)

theorem aside_loadPosn (posn : PosnPtr × Posn) : Aside app (app.loadPosn posn) :=
  (aside_ensureSess posn.1.1).trans (aside_setSess rfl rfl)

/-! ## Markets -/

theorem loadMarkets_kept (markets : List (Int × Market)) {n : Int} {market : Market} (found : app.markets.find n = some market) :
    (markets.foldl loadMarket app).markets.find n = some market := by
  induction markets generalizing app with
  | nil => exact found
  | cons x markets inductionHypothesis =>
    rw [List.foldl_cons]
    apply inductionHypothesis
    rw [loadMarket, OrdMap.find_insert]
    split
    next here => rw [← here, found]; rfl
    next => exact found

/-- A market is delivered once, and is then there as it was delivered. -/
theorem find_loadMarkets (app : App) {markets : List (Int × Market)} (nodup : (markets.map Prod.fst).Nodup)
    (absent : ∀ x ∈ markets, app.markets.find x.1 = none) {x : Int × Market} (member : x ∈ markets) :
    (markets.foldl loadMarket app).markets.find x.1 = some x.2 := by
  induction markets generalizing app with
  | nil => cases member
  | cons first markets inductionHypothesis =>
    rw [List.map_cons, List.nodup_cons] at nodup
    have inserted : (app.loadMarket first).markets = app.markets.put first.1 first.2 :=
      OrdMap.insert_of_none (absent first List.mem_cons_self) first.2
    rw [List.foldl_cons]
    cases List.mem_cons.mp member with
    | inl here =>
      rw [here]
      apply loadMarkets_kept
      rw [inserted, OrdMap.find_put_self]
    | inr later =>
      refine inductionHypothesis (app.loadMarket first) nodup.2 (fun y inside => ?_) later
      have differ : y.1 ≠ first.1 := fun same => nodup.1 (same ▸ List.mem_map_of_mem inside)
      rw [inserted, OrdMap.find_put_ne _ _ differ]
      exact absent y (List.mem_cons_of_mem _ inside)

/-- What the load is given: markets without orders, and open orders with different keys, within the counters. -/
structure Sensible (model : Model) : Prop where
  nodup : (model.markets.map Prod.fst).Nodup
  empty : ∀ x ∈ model.markets, x.2.bidSide = .empty ∧ x.2.offerSide = .empty
  counters : ∀ x ∈ model.markets, 0 ≤ x.2.maxId
  keys : (model.orders.map fun o => o.key).Nodup
  open_ : ∀ o ∈ model.orders, o.resdLots ≠ 0
  balance : ∀ o ∈ model.orders, o.resdLots + o.execLots = o.lots
  positive : ∀ o ∈ model.orders, 0 < o.id
  bounded : ∀ o ∈ model.orders, ∃ market, (o.marketId, market) ∈ model.markets ∧ o.id ≤ market.maxId

theorem maxId_of_find {n : Int} {market : Market} (found : app.markets.find n = some market) :
    app.view.maxId n = market.maxId :=
  congrArg Market.maxId (OrdMap.get_of_find found)

theorem maxId_of_none {n : Int} (absent : app.markets.find n = none) : app.view.maxId n = 0 := by
  show (app.markets.get n).maxId = 0
  rw [OrdMap.get, absent]
  rfl

/-- Only the markets change. -/
theorem loadMarkets_eq (markets : List (Int × Market)) (app : App) :
    markets.foldl loadMarket app = { app with markets := (markets.foldl loadMarket app).markets } := by
  induction markets generalizing app with
  | nil => rfl
  | cons x markets inductionHypothesis => exact inductionHypothesis (app.loadMarket x)

/-- The markets of a load without their orders. -/
theorem Sensible.markets (sensible : Sensible model) (capacity maxExecs : Nat) :
    (model.markets.foldl loadMarket (App.make capacity maxExecs)).Inv := by
  obtain ⟨app, loaded⟩ : ∃ app, app = model.markets.foldl loadMarket (App.make capacity maxExecs) := ⟨_, rfl⟩
  have same : app = { App.make capacity maxExecs with markets := app.markets } := by
    rw [loaded]
    exact loadMarkets_eq _ _
  have side : app.view.side = fun _ _ => .empty := by
    rw [loaded]
    refine loadMarkets_sides _ _ sensible.empty ?_
    funext m s
    cases s <;> rfl
  have none_ : ∀ p, (app.heap.orders.find p).isSome → False := fun p present => by
    rw [same] at present
    cases present
  rw [← loaded]
  exact
    { live := (Loading.of_empty side (by rw [same]; rfl) (by rw [same]; rfl)).live
      complete := fun p present _ => (none_ p present).elim
      ids :=
        { nonneg := fun n => by
            cases found : app.markets.find n with
            | none => rw [maxId_of_none found]
            | some market =>
              have listed := (loadMarkets_find model.markets (App.make capacity maxExecs) n).mp (by rw [← loaded, found]; rfl)
              obtain ⟨x, member, rfl⟩ := List.mem_map.mp (listed.resolve_left (fun present => by cases present))
              have own := find_loadMarkets (App.make capacity maxExecs) sensible.nodup (fun _ _ => rfl) member
              rw [maxId_of_find (loaded ▸ own)]
              exact sensible.counters x member
          positive := fun p present => (none_ p present).elim
          bounded := fun p present => (none_ p present).elim
          unique := fun p _ present => (none_ p present).elim }
      matches_ := by rw [same]; rfl
      execs_ := by rw [same]; rfl }

/-! ## Orders -/

section Booked

variable {o : Order} {h : Heap} {x : MarketSide}

/-- An order after one is loaded: the new one, or one that was there. -/
theorem Booked.classify (booked : Booked app o h x app') {q : OrderPtr} (present : (app'.heap.orders.find q).isSome) :
    (q = app.heap.orders.fresh ∧ ∃ lp, app'.order q = { o with level := lp }) ∨
      ((app.heap.orders.find q).isSome ∧ app'.order q = app.order q) := by
  have heap : app'.heap = h := congrArg View.heap booked.view
  cases eq_or_ne q app.heap.orders.fresh with
  | inl here =>
    obtain ⟨lp, own⟩ := booked.own
    exact .inl ⟨here, lp, by rw [App.order, heap, here, own]⟩
  | inr differ =>
    rw [heap, booked.others q differ] at present
    exact .inr ⟨present, booked.order_ne differ⟩

theorem Booked.maxId (booked : Booked app o h x app') : app'.view.maxId = app.view.maxId := by
  rw [booked.view]
  rfl

theorem Booked.mem (booked : Booked app o h x app') (m : Int) (s : Side) (q : OrderPtr) :
    q ∈ (app'.view.side m s).orders ↔
      (q = app.heap.orders.fresh ∧ m = o.marketId ∧ s = o.side) ∨ q ∈ (app.view.side m s).orders := by
  rw [show app'.view.side = setSide app.view.side o.marketId o.side x by rw [booked.view]; rfl, mem_setSide, booked.orders,
    mem_ordersWith]
  by_cases here : m = o.marketId ∧ s = o.side
  · obtain ⟨rfl, rfl⟩ := here
    simp
  · simp [here]

/-- A loaded order within the counter of its market keeps the invariant. -/
theorem Booked.inv (booked : Booked app o h x app') (inv : app.Inv)
    (unused : ∀ p, (app.heap.orders.find p).isSome → (app.order p).key ≠ o.key) (positive : 0 < o.id)
    (bounded : o.id ≤ app.view.maxId o.marketId) : app'.Inv where
  live := booked.live
  complete q present (open_ : (app'.order q).resdLots ≠ 0) := by
    show q ∈ (app'.view.side (app'.order q).marketId (app'.order q).side).orders
    rw [booked.mem]
    cases booked.classify present with
    | inl new =>
      obtain ⟨here, lp, own⟩ := new
      rw [own]
      exact .inl ⟨here, rfl, rfl⟩
    | inr old =>
      obtain ⟨before, same⟩ := old
      rw [same] at open_ ⊢
      exact .inr (inv.complete q before open_)
  ids :=
    { nonneg := fun m => by
        rw [booked.maxId]
        exact inv.ids.nonneg m
      positive := fun q present => by
        show 0 < (app'.order q).id
        cases booked.classify present with
        | inl new =>
          obtain ⟨-, lp, own⟩ := new
          rw [own]
          exact positive
        | inr old => rw [old.2]; exact inv.ids.positive q old.1
      bounded := fun q present => by
        show (app'.order q).id ≤ app'.view.maxId (app'.order q).marketId
        rw [booked.maxId]
        cases booked.classify present with
        | inl new =>
          obtain ⟨-, lp, own⟩ := new
          rw [own]
          exact bounded
        | inr old => rw [old.2]; exact inv.ids.bounded q old.1
      unique := fun q r presentQ presentR (same : (app'.order q).key = (app'.order r).key) => by
        cases booked.classify presentQ with
        | inl newQ =>
          obtain ⟨hereQ, lp, ownQ⟩ := newQ
          rw [ownQ] at same
          cases booked.classify presentR with
          | inl newR => rw [hereQ, newR.1]
          | inr oldR =>
            rw [oldR.2] at same
            exact absurd same.symm (unused r oldR.1)
        | inr oldQ =>
          rw [oldQ.2] at same
          cases booked.classify presentR with
          | inl newR =>
            obtain ⟨-, lp, ownR⟩ := newR
            rw [ownR] at same
            exact absurd same (unused q oldQ.1)
          | inr oldR =>
            rw [oldR.2] at same
            exact inv.ids.unique q r oldQ.1 oldR.1 same }
  matches_ := booked.scratch.1.trans inv.matches_
  execs_ := booked.scratch.2.trans inv.execs_

end Booked

/-- The orders of a load, one after the other. -/
theorem loadOrders_inv (orders : List Order) {app : App} (inv : app.Inv)
    (unused : ∀ p, (app.heap.orders.find p).isSome → ∀ o ∈ orders, (app.order p).key ≠ o.key)
    (keys : (orders.map fun o => o.key).Nodup) (open_ : ∀ o ∈ orders, o.resdLots ≠ 0)
    (balance : ∀ o ∈ orders, o.resdLots + o.execLots = o.lots) (positive : ∀ o ∈ orders, 0 < o.id)
    (bounded : ∀ o ∈ orders, (app.markets.find o.marketId).isSome ∧ o.id ≤ app.view.maxId o.marketId) :
    ∃ app', orders.foldlM App.loadOrder app = some app' ∧ app'.Inv ∧ app'.mq = app.mq ∧ app'.view.maxId = app.view.maxId ∧
      ∀ m, (app'.markets.find m).isSome = (app.markets.find m).isSome := by
  induction orders generalizing app with
  | nil => exact ⟨app, rfl, inv, rfl, rfl, fun _ => rfl⟩
  | cons o orders inductionHypothesis =>
    obtain ⟨openFirst, open_⟩ := List.forall_mem_cons.mp open_
    obtain ⟨balanceFirst, balance⟩ := List.forall_mem_cons.mp balance
    obtain ⟨positiveFirst, positive⟩ := List.forall_mem_cons.mp positive
    obtain ⟨⟨known, boundedFirst⟩, bounded⟩ := List.forall_mem_cons.mp bounded
    rw [List.map_cons, List.nodup_cons] at keys
    have unusedFirst : ∀ p, (app.heap.orders.find p).isSome → (app.order p).key ≠ o.key := fun p present =>
      unused p present o List.mem_cons_self
    have absent : (app.view.orders o.accnt).find o.key = none := by
      cases found : (app.view.orders o.accnt).find o.key with
      | none => rfl
      | some q =>
        obtain ⟨-, key, listed⟩ := inv.live.booked _ _ q found
        exact absurd key (unusedFirst q (inv.live.present listed))
    obtain ⟨h, x, app₁, booked⟩ := loadOrder_spec inv.live absent openFirst balanceFirst known
    have unusedLater : ∀ p, (app₁.heap.orders.find p).isSome → ∀ o' ∈ orders, (app₁.order p).key ≠ o'.key := by
      intro p present o' member
      cases booked.classify present with
      | inl new =>
        obtain ⟨-, lp, own⟩ := new
        rw [own]
        exact fun same => keys.1 (List.mem_map.mpr ⟨o', member, same.symm⟩)
      | inr old =>
        rw [old.2]
        exact unused p old.1 o' (List.mem_cons_of_mem _ member)
    obtain ⟨app', rest, inv', mq, maxId, markets⟩ :=
      inductionHypothesis (booked.inv inv unusedFirst positiveFirst boundedFirst) unusedLater keys.2 open_ balance positive
        fun o' member => by rw [booked.markets, booked.maxId]; exact bounded o' member
    have mqFirst : app₁.mq = app.mq := congrArg View.mq booked.view
    refine ⟨app', ?_, inv', mq.trans mqFirst, maxId.trans booked.maxId, fun m => (markets m).trans (booked.markets m)⟩
    rw [List.foldlM_cons, booked.loaded]
    exact rest

/-- A load of what is sensible succeeds, with the counters that were delivered. -/
theorem Sensible.load (sensible : Sensible model) (capacity maxExecs : Nat) (now busDay : Int) :
    ∃ app', (App.make capacity maxExecs).load model now busDay = some app' ∧ app'.Inv ∧
      app'.mq = (App.make capacity maxExecs).mq ∧ (∀ n, (app'.markets.find n).isSome ↔ n ∈ model.markets.map Prod.fst) ∧
      ∀ x ∈ model.markets, app'.view.maxId x.1 = x.2.maxId := by
  obtain ⟨app₀, loaded⟩ : ∃ app₀, app₀ = model.markets.foldl loadMarket (App.make capacity maxExecs) := ⟨_, rfl⟩
  have inv : app₀.Inv := loaded ▸ sensible.markets capacity maxExecs
  have none_ : ∀ p, (app₀.heap.orders.find p).isSome → False := fun p present => by
    rw [loaded, loadMarkets_eq] at present
    cases present
  have found : ∀ x ∈ model.markets, app₀.markets.find x.1 = some x.2 := fun x member =>
    loaded ▸ find_loadMarkets (App.make capacity maxExecs) sensible.nodup (fun _ _ => rfl) member
  obtain ⟨app₁, all, inv₁, mq, maxId, markets⟩ := loadOrders_inv model.orders inv (fun p present => (none_ p present).elim)
    sensible.keys sensible.open_ sensible.balance sensible.positive fun o member => by
      obtain ⟨market, delivered, small⟩ := sensible.bounded o member
      have known := found _ delivered
      exact ⟨by rw [known]; rfl, by rw [maxId_of_find known]; exact small⟩
  obtain ⟨app', rest⟩ : ∃ app', app' = (model.posns busDay).foldl loadPosn
      (model.trades.foldl loadTrade ((model.execs (now - oneWeek)).foldl loadExec app₁)) := ⟨_, rfl⟩
  have aside : Aside app₁ app' := by
    rw [rest]
    exact ((Aside.foldl (fun _ e => aside_loadExec e) _ app₁).trans (Aside.foldl (fun _ e => aside_loadTrade e) _ _)).trans
      (Aside.foldl (fun _ posn => aside_loadPosn posn) _ _)
  refine ⟨app', by rw [App.load, ← loaded, all, rest], aside.inv inv₁, ?_, fun n => ?_, fun x member => ?_⟩
  · rw [aside.mq, mq, loaded, loadMarkets_eq]
  · rw [aside.markets, markets, loaded, loadMarkets_find]
    exact or_iff_right fun present => by cases present
  · have same : app'.view.maxId = app₁.view.maxId := by
      funext n
      show (app'.markets.get n).maxId = (app₁.markets.get n).maxId
      rw [aside.markets]
    rw [same, maxId, maxId_of_find (found x member)]

end App

end Swirly
