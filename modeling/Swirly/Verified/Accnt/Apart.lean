import Swirly.Verified.Told

/-!
# Accounts that a call does not act for

A call acts for one account, and a manual trade for its counter-party too.  To any other account it does nothing but
match its orders: `Apart` says so of the orders, the executions, the trades and the positions of that account.
-/

namespace Swirly

open Function

namespace Op

/-- The accounts that a call acts for. -/
def ActsFor (a : Symbol) : Op → Prop
  | sess b | archiveExec b .. | archiveTrade b .. | archiveTrades b .. => b = a
  | createOrder b .. => b = a
  | changeOrder b .. => b = a
  | createTrade b _ _ _ _ _ _ cpty _ => b = a ∨ (cpty.isEmpty = false ∧ cpty = a)
  | createMarket .. | updateMarket .. | pop => False

/-- The account of a new order. -/
def taker : Op → Option Symbol
  | createOrder b .. => some b
  | _ => none

end Op

namespace App

variable {app app' : App} {op : Op} {taker : Option Symbol} {a b : Symbol} {m now : Int} {news : List Exec} {es : List ExecPtr}

/-- The maker's side of a match with a new order of the taker. -/
structure MatchedBy (app' : App) (taker : Option Symbol) (a : Symbol) (e : ExecPtr) : Prop where
  trade : app'.Trade e
  accnt : (app'.exec e).accnt = a
  liqInd : (app'.exec e).liqInd = .maker
  cpty : taker = some (app'.exec e).cpty

/-- Nothing happens to an account but the matches `es`. -/
structure Apart (app : App) (taker : Option Symbol) (a : Symbol) (es : List ExecPtr) (app' : App) : Prop where
  matched : ∀ e ∈ es, MatchedBy app' taker a e
  execs : ∀ e, (app.execs.find e).isSome → app'.execs.find e = app.execs.find e
  orders : ∀ p, (app.heap.orders.find p).isSome → (app.order p).accnt = a → app'.plain p = app.plain p ∨
    ∃ e ∈ es, (app'.exec e).Reports (app.order p) ∧ app'.plain p = (app.plain p).step (app'.exec e)
  /-- An order leaves the session when it is done. -/
  listed : ∀ k p, (app'.sess a).orders.find k = some p ↔
    (app.sess a).orders.find k = some p ∧ (app'.order p).done = false
  history : (app'.sess a).execs = pushAll app.maxExecs (app.sess a).execs es
  trades : ∀ k e, (app'.sess a).trades.find k = some e ↔
    (app.sess a).trades.find k = some e ∨ (e ∈ es ∧ (app'.exec e).key = k)
  posn : ∀ m, (app'.sess a).posn m = (es.filter fun e => (app'.exec e).marketId = m).foldl
    (fun posn e => posn.addTrade (app'.exec e).side (app'.exec e).lastLots (app'.exec e).lastTicks) ((app.sess a).posn m)

/-! ## Orders -/

/-- The order index of a session holds the open orders of its account. -/
theorem Inv.find_order (inv : app.Inv) {k : IdKey} {p : OrderPtr} : (app.view.orders a).find k = some p ↔
    (app.heap.orders.find p).isSome ∧ (app.order p).accnt = a ∧ (app.order p).key = k ∧ (app.order p).done = false := by
  rw [inv.live.find_iff]
  constructor
  · intro booked
    obtain ⟨accnt, key, member⟩ := booked
    exact ⟨inv.live.present member, accnt, key, decide_eq_false (inv.live.resdLots _ _ p member)⟩
  · intro stored
    obtain ⟨present, accnt, key, open_⟩ := stored
    exact ⟨accnt, key, inv.complete p present (of_decide_eq_false open_)⟩

/-- The orders of an account stay the same orders, and only open ones change. -/
structure OrdersApart (app : App) (a : Symbol) (es : List ExecPtr) (app' : App) : Prop where
  old : ∀ p, (app'.heap.orders.find p).isSome → (app'.order p).accnt = a → (app.heap.orders.find p).isSome
  kept : ∀ p, (app.heap.orders.find p).isSome → (app'.heap.orders.find p).isSome ∧ (app'.order p).Same (app.order p)
  moved : ∀ p, (app.heap.orders.find p).isSome → (app.order p).accnt = a → app'.plain p = app.plain p ∨
    ((app.order p).done = false ∧
      ∃ e ∈ es, (app'.exec e).Reports (app.order p) ∧ app'.plain p = (app.plain p).step (app'.exec e))

theorem OrdersApart.listed (inv : app.Inv) (inv' : app'.Inv) (apart : OrdersApart app a es app') (k : IdKey) (p : OrderPtr) :
    (app'.view.orders a).find k = some p ↔ (app.view.orders a).find k = some p ∧ (app'.order p).done = false := by
  rw [inv.find_order, inv'.find_order]
  constructor
  · intro after
    obtain ⟨present', accnt', key', open'⟩ := after
    have present := apart.old p present' accnt'
    obtain ⟨-, same⟩ := apart.kept p present
    have accnt := same.accnt.symm.trans accnt'
    refine ⟨⟨present, accnt, same.key.symm.trans key', ?_⟩, open'⟩
    cases apart.moved p present accnt with
    | inl still =>
      -- The quantity is not in the link to the level.
      have resdLots : (app'.plain p).resdLots = (app.plain p).resdLots := congrArg Order.resdLots still
      exact (congrArg (fun lots : Int => decide (lots = 0)) resdLots).symm.trans open'
    | inr moved => exact moved.1
  · intro before
    obtain ⟨⟨present, accnt, key, -⟩, open'⟩ := before
    obtain ⟨present', same⟩ := apart.kept p present
    exact ⟨present', same.accnt.trans accnt, same.key.trans key, open'⟩

theorem OrdersApart.of_kept (kept : Heap.Kept app.heap app'.heap)
    (still : ∀ p, (app.order p).accnt = a → app'.order p = app.order p) : OrdersApart app a [] app' where
  old p present _ := (kept.live p).symm.trans present
  kept p present := ⟨(kept.live p).trans present, kept.same p⟩
  moved p _ accnt := .inl (congrArg Order.plain (still p accnt))

/-! ## What is filed -/

/-- Executions do not change once they are made. -/
theorem Filed.find_old (filed : Filed app app' news es)
    (stamped : Stamped (app.view.ledger (app.execs.allocs news)) es app'.ledger) {e : ExecPtr}
    (present : (app.execs.find e).isSome) : app'.execs.find e = app.execs.find e := by
  obtain ⟨x, found⟩ := Option.isSome_iff_exists.mp present
  have old := OrdMap.lt_fresh found
  have unfiled : e ∉ es := fun member => by
    obtain ⟨i, -, rfl⟩ := List.mem_map.mp (filed.addresses.mem_iff.mp member)
    exact absurd old (not_lt.mpr (Nat.le_add_right _ i))
  have same : app'.exec e = app.exec e := by
    have exec : app'.exec e = (app.execs.allocs news).get e := stamped.others e fun member => absurd member unfiled
    rw [exec, OrdMap.get, OrdMap.find_allocs_of_lt _ _ old]
    rfl
  rw [OrdMap.find_eq_some_get ((filed.old old).1.trans present), OrdMap.find_eq_some_get present]
  exact congrArg some same

/-- What a call files for one account, if it is all trades. -/
theorem Filed.apart (sound : app.TradesSound) (filed : Filed app app' news es) (numbered : Numbered app app' news m)
    {mine : List ExecPtr} (own : mine = es.filter fun e => (app'.exec e).accnt = a)
    (matched : ∀ e ∈ mine, MatchedBy app' taker a e)
    (execs : ∀ e, (app.execs.find e).isSome → app'.execs.find e = app.execs.find e)
    (inv : app.Inv) (inv' : app'.Inv) (orders : OrdersApart app a mine app') : Apart app taker a mine app' where
  matched := matched
  execs := execs
  orders p present accnt := (orders.moved p present accnt).imp id And.right
  listed := orders.listed inv inv'
  history := by rw [own]; exact filed.history a
  trades k e := by
    rw [show (app'.sess a).trades = app'.view.trades a from rfl, sound.find_trades filed numbered]
    refine or_congr Iff.rfl ⟨fun new => ?_, fun new => ?_⟩
    · obtain ⟨member, -, accnt, key⟩ := new
      rw [own]
      exact ⟨List.mem_filter.mpr ⟨member, decide_eq_true accnt⟩, key⟩
    · have matched := matched e new.1
      rw [own] at new
      exact ⟨(List.mem_filter.mp new.1).1, matched.trade.state, matched.accnt, new.2⟩
  posn n := by
    have exec : ∀ d ∈ es, (app'.exec d).unstamped = ((app.view.ledger (app.execs.allocs news)).exec d).unstamped :=
      fun d _ => filed.entered.unstamped d
    rw [show (app'.sess a).posn = app'.ledger.posn a from rfl, filed.entered.posn, ← addTrades_congr exec, addTrades_apply,
      own, List.filter_filter]
    congr 1
    refine List.filter_congr fun e member => ?_
    by_cases accnt : (app'.exec e).accnt = a
    · have trade := (matched e (by rw [own]; exact List.mem_filter.mpr ⟨member, decide_eq_true accnt⟩)).trade.state
      simp [accnt, trade]
    · simp [accnt]

/-! ## Calls -/

section Create

variable {o : Order} {fs : List Fill} {s : Side} {v : View}

/-- The reports of another account's order and of its matches that belong to the account. -/
theorem Located.maker_of_accnt (located : Located app o now fs app') (other : o.accnt ≠ a) {e : ExecPtr}
    (member : e ∈ app.execs.fresh :: fs.flatMap Fill.trades) (accnt : (app'.exec e).accnt = a) :
    ∃ f ∈ fs, e = f.makerTrade := by
  cases List.mem_cons.mp member with
  | inl first =>
    obtain ⟨_, _, made⟩ := located.first
    rw [first, made] at accnt
    exact absurd accnt other
  | inr later =>
    obtain ⟨f, inside, here⟩ := List.mem_flatMap.mp later
    cases List.mem_pair.mp here with
    | inl maker => exact ⟨f, inside, maker⟩
    | inr taker =>
      obtain ⟨_, _, made⟩ := located.taker f inside
      rw [taker, made] at accnt
      exact absurd accnt other

/-- What the order of another account does to the orders of the account. -/
theorem Moved.ordersApart (inv : app.Inv) (other : o.accnt ≠ a) (fills : fs = app.incomingFills m o)
    (moved : Moved app o fs app') (located : Located app o now fs app')
    (taken : ∀ f ∈ fs, app'.plain f.maker = ((app.order f.maker).trade f.lots (app.order f.maker).ticks now).plain) :
    OrdersApart app a ((app.execs.fresh :: fs.flatMap Fill.trades).filter fun e => (app'.exec e).accnt = a) app' where
  old p present accnt := by
    by_cases here : p = app.heap.orders.fresh
    · rw [here, moved.fresh.2.accnt] at accnt
      exact absurd accnt other
    · exact (moved.old here).1.symm.trans present
  kept p present := by
    obtain ⟨live, same⟩ := moved.old (OrdMap.ne_fresh present)
    exact ⟨live.trans present, same⟩
  moved p present accnt := by
    by_cases maker : p ∈ fs.map Fill.maker
    · obtain ⟨f, inside, rfl⟩ := List.mem_map.mp maker
      obtain ⟨lots, cost, made⟩ := located.maker f inside
      have booked : f.maker ∈ (app.view.side m o.side.opposite).orders := (mem_fillsOf (fills ▸ inside)).1
      refine .inr ⟨decide_eq_false (inv.live.resdLots _ _ _ booked), f.makerTrade, ?_, ?_, ?_⟩
      · refine List.mem_filter.mpr ⟨?_, decide_eq_true (by rw [made]; exact accnt)⟩
        exact List.mem_cons_of_mem _ (List.mem_flatMap.mpr ⟨f, inside, List.mem_cons_self⟩)
      · rw [made]
        exact ⟨rfl, rfl⟩
      · rw [made, taken f inside]
        rfl
    · exact .inl (congrArg Order.plain (moved.others p (OrdMap.ne_fresh present) maker))

theorem created_apart (inv : app.Inv) (inv' : app'.Inv) (sound : app.TradesSound) (new : New app b m o)
    (state : o.state = .new) (other : b ≠ a) (given : taker = some b)
    (opened : Opened app b m o now (app.incomingFills m o) v)
    (commits : Commits b m s now ((app.incomingFills m o).map fun f => f.toMatch app.heap m) v app'.view)
    (ledger : app'.ledger = createdLedger app b m o now (app.incomingFills m o)) : ∃ es, Apart app taker a es app' := by
  obtain ⟨filed, stamped, numbered⟩ := created_filed inv new state opened commits ledger
  have located := filed.located
  have moved := opened.moved commits
  have foreign : o.accnt ≠ a := by rw [new.accnt]; exact other
  have nodup : ((app.incomingFills m o).map Fill.maker).Nodup := fillsOf_nodup (inv.live.wf m _).nodup
  have taken : ∀ f ∈ app.incomingFills m o,
      app'.plain f.maker = ((app.order f.maker).trade f.lots (app.order f.maker).ticks now).plain := by
    intro f inside
    obtain ⟨level, order⟩ := commits.order (by rw [List.map_map]; exact nodup) (List.mem_map_of_mem inside)
    have before : v.heap.order f.maker = app.order f.maker :=
      opened.placed.order_ne (OrdMap.ne_fresh (inv.live.present (mem_fillsOf inside).1))
    rw [App.plain, show app'.order f.maker = _ from order]
    show ((v.heap.order f.maker).trade f.lots (v.heap.order f.maker).ticks now).plain = _
    rw [before]
  refine ⟨_, filed.apart sound numbered (by rw [incoming_trades]) (fun e member => ?_)
    (fun e present => filed.find_old stamped present) inv inv' (moved.ordersApart inv foreign rfl located taken)⟩
  obtain ⟨member, accnt⟩ := List.mem_filter.mp member
  have accnt : (app'.exec e).accnt = a := of_decide_eq_true accnt
  obtain ⟨f, inside, rfl⟩ := located.maker_of_accnt foreign member accnt
  obtain ⟨lots, cost, made⟩ := located.maker f inside
  have present : (app'.execs.find f.makerTrade).isSome :=
    (filed.entered.live _).trans (app.present_newAddresses _ _ (by rw [incoming_trades]; exact member))
  refine ⟨⟨present, by rw [made]; rfl⟩, accnt, by rw [made]; rfl, ?_⟩
  rw [given, made, ← new.accnt]
  rfl

end Create

/-- The reports of changes belong to the account of the orders. -/
theorem Filed.accnt_of_change {change : Change} {ps : List OrderPtr} {id : Int} (own : ∀ p ∈ ps, (app.order p).accnt = b)
    (filed : Filed app app' (reportsOf app.heap change now id ps) es) {e : ExecPtr}
    (member : e ∈ app.newAddresses (reportsOf app.heap change now id ps).length) : (app'.exec e).accnt = b := by
  obtain ⟨lots, cost, same⟩ := filed.exec e
  have inside := List.mem_map_of_mem (f := (app.view.ledger (app.execs.allocs (reportsOf app.heap change now id ps))).exec) member
  rw [map_newAddresses] at inside
  rw [same]
  exact (reportsOf_state app.heap change now id ps own _ inside).1

/-- Changes of another account's orders. -/
theorem changed_apart {change : Change} {ps : List OrderPtr} {mq : MsgQueue} (inv : app.Inv) (inv' : app'.Inv)
    (sound : app.TradesSound) (other : b ≠ a) (held : ∀ p ∈ ps, app.Held b p)
    (journaled : app.mq.Journaled (reportsOf app.heap change now (app.view.maxId m) ps) mq)
    (changes : Changes change now (pairs app.execs.fresh ps) { app.view with
      mq
      maxId := update app.view.maxId m (app.view.maxId m + ps.length)
      reports := app.view.reports.allocs (reportsOf app.heap change now (app.view.maxId m) ps) } app'.view)
    (execs : app'.execs = app.execs.allocs (reportsOf app.heap change now (app.view.maxId m) ps)) :
    Apart app taker a [] app' := by
  obtain ⟨filed, stamped, numbered⟩ := changed_filed (fun p member => (held p member).accnt) journaled changes execs
  have kept : Heap.Kept app.heap app'.heap := changes.kept
  refine filed.apart sound numbered (List.filter_eq_nil_iff.mpr fun e member => ?_).symm (List.forall_mem_nil _)
    (fun e present => filed.find_old stamped present) inv inv' (.of_kept kept fun p accnt => ?_)
  · have accnt := filed.accnt_of_change (fun p member => (held p member).accnt) member
    exact fun here => other (accnt.symm.trans (of_decide_eq_true here))
  · have differ : p ∉ ps := fun member => other ((held p member).accnt.symm.trans accnt)
    exact changes.order_ne (by rw [pairs_snd]; exact differ)

/-- A manual trade of other accounts. -/
theorem traded_apart {trade : Exec} {cpty : Symbol} {result : ExecPtr × Option ExecPtr} (inv : app.Inv) (inv' : app'.Inv)
    (sound : app.TradesSound) (other : b ≠ a) (distinct : cpty.isEmpty = false → cpty ≠ a)
    (traded : Traded app b m trade cpty (.ok result app')) (accnt : trade.accnt = b) (marketId : trade.marketId = m)
    (state : trade.state = .trade) (named : trade.cpty = cpty) (id : trade.id = app.view.maxId m + 1) :
    Apart app taker a [] app' := by
  have heap : app'.heap = app.heap := by
    cases traded with
    | oneSided alone journal view => exact congrArg View.heap view
    | twoSided paired journal view => exact congrArg View.heap view
  have orders : OrdersApart app a [] app' :=
    .of_kept (heap ▸ .refl _) fun p _ => congrArg (fun h : Heap => h.order p) heap
  have old : ∀ (news : List Exec) (e : ExecPtr), app'.execs = app.execs.allocs news → (app.execs.find e).isSome →
      app'.execs.find e = app.execs.find e := by
    intro news e execs present
    obtain ⟨x, found⟩ := Option.isSome_iff_exists.mp present
    rw [execs, OrdMap.find_allocs_of_lt _ _ (OrdMap.lt_fresh found)]
  have away : ∀ (news : List Exec) (e : ExecPtr), app'.execs = app.execs.allocs news → (∀ x ∈ news, x.accnt ≠ a) →
      e ∈ app.newAddresses news.length → ¬ (app'.exec e).accnt = a := by
    intro news e execs foreign member
    have inside := List.mem_map_of_mem (f := (app.view.ledger (app.execs.allocs news)).exec) member
    rw [map_newAddresses] at inside
    rw [App.exec, execs]
    exact foreign _ inside
  cases traded.filed accnt marketId state named id with
  | inl alone =>
    obtain ⟨-, filed, execs, numbered⟩ := alone
    have foreign : ∀ x ∈ [trade], x.accnt ≠ a := by simpa [accnt] using other
    refine filed.apart sound numbered (List.filter_eq_nil_iff.mpr fun e member here => ?_).symm (List.forall_mem_nil _)
      (fun e => old _ e execs) inv inv' orders
    exact away _ e execs foreign (filed.addresses.mem_iff.mp member) (of_decide_eq_true here)
  | inr paired =>
    obtain ⟨paired, -, filed, execs, numbered⟩ := paired
    have foreign : ∀ x ∈ [trade, trade.opposite (app.view.maxId m + 2)], x.accnt ≠ a := by
      have second : (trade.opposite (app.view.maxId m + 2)).accnt ≠ a := by
        show trade.cpty ≠ a
        rw [named]
        exact distinct paired
      simpa [accnt, second] using other
    refine filed.apart sound numbered (List.filter_eq_nil_iff.mpr fun e member here => ?_).symm (List.forall_mem_nil _)
      (fun e => old _ e execs) inv inv' orders
    exact away _ e execs foreign (filed.addresses.mem_iff.mp member) (of_decide_eq_true here)

/-- A call that leaves the account as it is. -/
theorem Apart.of_same (inv : app.Inv) (execs : app'.execs = app.execs) (heap : app'.heap = app.heap)
    (orders : app'.view.orders a = app.view.orders a) (history : app'.view.history a = app.view.history a)
    (trades : app'.view.trades a = app.view.trades a) (posn : app'.view.posn a = app.view.posn a) : Apart app taker a [] app' where
  matched := List.forall_mem_nil _
  execs e _ := by rw [execs]
  orders p _ _ := .inl (by rw [App.plain, App.order, heap]; rfl)
  listed k p := by
    rw [show (app'.sess a).orders = (app.sess a).orders from orders]
    refine ⟨fun found => ⟨found, ?_⟩, And.left⟩
    rw [App.order, heap]
    exact (inv.find_order.mp found).2.2.2
  history := history
  trades k e := by
    rw [show (app'.sess a).trades = (app.sess a).trades from trades]
    simp
  posn m := congrFun posn m

theorem Archives.actsFor (acts : Archives op b) : op.ActsFor b := by
  cases op with
  | archiveExec | archiveTrade | archiveTrades => exact acts
  | sess | createMarket | updateMarket | createOrder | changeOrder | createTrade | pop => exact False.elim acts

theorem Effect.apart (inv : app.Inv) (inv' : app'.Inv) (sound : app.TradesSound) (effect : Effect app op app')
    (other : ¬ op.ActsFor a) : ∃ es, Apart app op.taker a es app' := by
  cases effect with
  | idle grown view execs =>
    exact ⟨[], .of_same inv execs (congrArg View.heap view) (by rw [view]) (by rw [view]) (by rw [view]) (by rw [view])⟩
  | posted view archived execs silent =>
    exact ⟨[], .of_same inv execs (congrArg View.heap view) (by rw [view]) (by rw [view]) (by rw [view]) (by rw [view])⟩
  | @archived _ b _ _ _ _ view archived owner execs silent acts =>
    have differ : b ≠ a := fun same => other (same ▸ acts.actsFor)
    have trades : app'.view.trades a = app.view.trades a := by
      rw [view]
      exact update_of_ne (Ne.symm differ) _ _
    exact ⟨[], .of_same inv execs (congrArg View.heap view) (by rw [view]; rfl) (by rw [view]; rfl) trades (by rw [view]; rfl)⟩
  | created checked opened commits ledger =>
    exact created_apart inv inv' sound incoming_new rfl other rfl opened commits ledger
  | changed held journaled changes execs =>
    exact ⟨[], changed_apart inv inv' sound other (fun p member => (held p member).1) journaled changes execs⟩
  | traded traded =>
    obtain ⟨differ, distinct⟩ := not_or.mp other
    exact ⟨[], traded_apart inv inv' sound differ (fun paired same => distinct ⟨paired, same⟩) traded rfl rfl rfl rfl rfl⟩

/-- What a step does to an account that it does not act for. -/
theorem step_apart (inv : app.Inv) (sound : app.TradesSound) (stepped : app.step op = some app') (other : ¬ op.ActsFor a) :
    ∃ es, Apart app op.taker a es app' := by
  obtain ⟨app₀, view, execs, inv₀, effect, clear⟩ := step_effect inv stepped
  obtain ⟨es, apart⟩ := effect.apart inv₀ (effect.inv inv₀ clear) (sound.of_view view execs) other
  have heap : app₀.heap = app.heap := congrArg View.heap view
  have plain : app₀.plain = app.plain := (Unmoved.of_heap heap).plain
  exact
    ⟨es,
      { matched := apart.matched
        execs := by rw [← execs]; exact apart.execs
        orders := fun p => by
          have moved := apart.orders p
          rw [plain, App.order, heap] at moved
          exact moved
        listed := by
          rw [show (app.sess a).orders = app.view.orders a from rfl, ← view]
          exact apart.listed
        history := by
          rw [show (app.sess a).execs = app.view.history a from rfl, show app.maxExecs = app.view.maxExecs from rfl, ← view]
          exact apart.history
        trades := by
          rw [show (app.sess a).trades = app.view.trades a from rfl, ← view]
          exact apart.trades
        posn := by
          rw [show (app.sess a).posn = app.view.posn a from rfl, ← view]
          exact apart.posn }⟩

end App

end Swirly
