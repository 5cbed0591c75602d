import Swirly.Verified.App.Filing

/-!
# The position before a trade

An execution of a trade says what the position of its account was before the trade.  The log of a run holds the trades
in the sequence in which they were added to positions.
-/

namespace Swirly

open Function

/-- The position of the account in the market after the trades. -/
def posnAfter (exec : ExecPtr → Exec) (log : List ExecPtr) (a : Symbol) (m : Int) : Posn :=
  (log.filter fun e => (exec e).accnt = a ∧ (exec e).marketId = m).foldl
    (fun posn e => posn.addTrade (exec e).side (exec e).lastLots (exec e).lastTicks) .make

/-- A trade of no lots changes neither. -/
theorem Posn.addTrade_zero (posn : Posn) (side : Side) (ticks : Int) :
    (posn.addTrade side 0 ticks).netLots = posn.netLots ∧ (posn.addTrade side 0 ticks).netCost = posn.netCost := by
  cases side with
  | buy =>
    simp only [Posn.addTrade, Posn.addBuy, Posn.netLots, Swirly.cost, if_true, Int.zero_mul]
    rw [if_pos (by omega)]
    omega
  | sell =>
    simp only [Posn.addTrade, Posn.addSell, Posn.netLots, Swirly.cost, if_neg (show Side.sell ≠ .buy from nofun), Int.zero_mul]
    rw [if_pos (by omega)]
    omega

namespace App

variable {app app' : App} {op : Op} {log : List ExecPtr}

/-- The trades that a call has added to positions, in sequence: the trade of a counter-party is added first. -/
def filedTrades (op : Op) (app app' : App) : List ExecPtr :=
  let made := (app.newAddresses (app'.execs.fresh - app.execs.fresh)).filter fun e => (app'.exec e).state = .trade
  if op.manual then made.reverse else made

/-- A call, with the log of the trades that were added. -/
def logStep (s : App × List ExecPtr) (op : Op) : Option (App × List ExecPtr) :=
  (s.1.step op).map fun app => (app, s.2 ++ filedTrades op s.1 app)

/-- Every trade carries the position of its own account just before it was added. -/
structure PriorPosns (app : App) (log : List ExecPtr) : Prop where
  nodup : log.Nodup
  complete : ∀ e, e ∈ log ↔ (app.execs.find e).isSome ∧ (app.exec e).state = .trade
  posn : ∀ a m, app.posn (a, m) = posnAfter app.exec log a m
  stamp : ∀ before e after, log = before ++ e :: after →
    (app.exec e).posnLots = (posnAfter app.exec before (app.exec e).accnt (app.exec e).marketId).netLots ∧
    (app.exec e).posnCost = (posnAfter app.exec before (app.exec e).accnt (app.exec e).marketId).netCost

end App

/-- The counter-party of a manual trade has the position of the account, or none is made for it. -/
def Op.Balanced (app : App) : Op → Prop
  | createTrade a m _ _ lots _ _ cpty _ =>
    (app.markets.find m).isNone ∨ app.mq.reserve < 2 ∨ cpty.isEmpty ∨
      (cpty = a → lots = 0) ∧ (app.posn (cpty, m)).netLots = (app.posn (a, m)).netLots ∧
        (app.posn (cpty, m)).netCost = (app.posn (a, m)).netCost
  | _ => True

instance (app : App) (op : Op) : Decidable (op.Balanced app) :=
  match op with
  | .createTrade _ _ _ _ _ _ _ _ _ => inferInstanceAs (Decidable (_ ∨ _ ∨ _ ∨ (_ → _) ∧ _ ∧ _))
  | .sess .. | .createMarket .. | .updateMarket .. | .createOrder .. | .changeOrder .. | .archiveExec .. | .archiveTrade ..
  | .archiveTrades .. | .pop => .isTrue trivial

namespace App

variable {app app' : App} {op : Op} {log es : List ExecPtr} {news : List Exec}

/-- The same for the trades of one call. -/
def PriorStamps (app app' : App) (es : List ExecPtr) : Prop :=
  ∀ before e after, es = before ++ e :: after →
    (app'.exec e).posnLots = (addTrades app'.exec app.view.posn before (app'.exec e).accnt (app'.exec e).marketId).netLots ∧
    (app'.exec e).posnCost = (addTrades app'.exec app.view.posn before (app'.exec e).accnt (app'.exec e).marketId).netCost

theorem posnAfter_eq {exec : ExecPtr → Exec} (trades : ∀ e ∈ log, (exec e).state = .trade) (a : Symbol) (m : Int) :
    posnAfter exec log a m = addTrades exec (fun _ _ => .make) log a m := by
  rw [addTrades_apply, posnAfter]
  congr 1
  refine List.filter_congr fun e member => ?_
  simp [trades e member]

/-- One more call. -/
theorem PriorPosns.snoc (prior : PriorPosns app log) (filed : Filed app app' news es) (nodup : es.Nodup)
    (trades : filedTrades op app app' = es.filter fun e => (app'.exec e).state = .trade)
    (same : ∀ e : Nat, e < app.execs.fresh → app'.exec e = app.exec e)
    (stamps : PriorStamps app app' (es.filter fun e => (app'.exec e).state = .trade)) :
    PriorPosns app' (log ++ filedTrades op app app') := by
  have fresh : ∀ e : Nat, e ∈ es ↔ app.execs.fresh ≤ e ∧ e < app.execs.fresh + news.length := fun (e : Nat) => by
    rw [filed.addresses.mem_iff, newAddresses, List.mem_map]
    constructor
    · intro inside
      obtain ⟨i, small, rfl⟩ := inside
      have small := List.mem_range.mp small
      omega
    · intro range
      exact ⟨e - app.execs.fresh, List.mem_range.mpr (by omega), Nat.add_sub_cancel' range.1⟩
  have logged : ∀ e : Nat, e ∈ log → e < app.execs.fresh ∧ (app.exec e).state = .trade := fun e member => by
    obtain ⟨present, trade⟩ := (prior.complete e).mp member
    obtain ⟨x, found⟩ := Option.isSome_iff_exists.mp present
    exact ⟨OrdMap.lt_fresh found, trade⟩
  have tradesBefore : ∀ e ∈ log, (app'.exec e).state = .trade := fun e member => by
    rw [same e (logged e member).1]
    exact (logged e member).2
  have posnBefore : app.view.posn = addTrades app'.exec (fun _ _ => .make) log := by
    funext a m
    rw [addTrades_congr (fun e member => by rw [same e (logged e member).1])]
    exact (prior.posn a m).trans (posnAfter_eq (fun e member => (logged e member).2) a m)
  rw [trades]
  exact
    { nodup := by
        refine List.nodup_append.mpr ⟨prior.nodup, nodup.filter _, fun e member d inside here => ?_⟩
        have new := (fresh d).mp (List.mem_of_mem_filter inside)
        exact absurd (logged e member).1 (not_lt.mpr (here ▸ new.1))
      complete := fun (e : Nat) => by
        rw [List.mem_append, List.mem_filter, fresh, prior.complete, decide_eq_true_eq]
        by_cases old : e < app.execs.fresh
        · rw [(filed.old old).1, same e old]
          exact ⟨fun either => either.resolve_right fun new => by omega, .inl⟩
        · have absent : (app.execs.find e).isSome = false := by
            rw [OrdMap.find_of_fresh_le (not_lt.mp old)]
            rfl
          have live : (app'.execs.find e).isSome ↔ e < app.execs.fresh + news.length := by
            rw [show (app'.execs.find e).isSome = _ from filed.entered.live e]
            constructor
            · intro present
              obtain ⟨x, found⟩ := Option.isSome_iff_exists.mp present
              exact OrdMap.fresh_allocs app.execs news ▸ OrdMap.lt_fresh found
            · intro below
              exact OrdMap.isSome_find_allocs _ _ (not_lt.mp old) below
          rw [absent, live]
          constructor
          · intro either
            exact either.elim (fun here => absurd here.1 (by simp)) fun new => ⟨new.1.2, new.2⟩
          · intro new
            exact .inr ⟨⟨not_lt.mp old, new.1⟩, new.2⟩
      posn := fun a m => by
        rw [posnAfter_eq _ a m, addTrades_append, ← posnBefore, addTrades_filter]
        · show app'.ledger.posn a m = _
          rw [filed.entered.posn]
          exact congrFun (congrFun (addTrades_congr (fun e _ => (filed.entered.unstamped e).symm) _) a) m
        · refine List.forall_mem_append.mpr ⟨tradesBefore, fun e inside => ?_⟩
          simpa using (List.mem_filter.mp inside).2
      stamp := fun before e after split => by
        have within : ∀ before rest, log = before ++ e :: rest →
            (app'.exec e).posnLots = (posnAfter app'.exec before (app'.exec e).accnt (app'.exec e).marketId).netLots ∧
            (app'.exec e).posnCost = (posnAfter app'.exec before (app'.exec e).accnt (app'.exec e).marketId).netCost :=
          fun before rest whole => by
            have early : ∀ d ∈ before, d ∈ log := fun d inside => by rw [whole]; exact List.mem_append_left _ inside
            have member : e ∈ log := by rw [whole]; simp
            have unchanged : ∀ a m, posnAfter app'.exec before a m = posnAfter app.exec before a m := fun a m => by
              rw [posnAfter_eq (fun d inside => tradesBefore d (early d inside)),
                posnAfter_eq (fun d inside => (logged d (early d inside)).2)]
              exact congrFun (congrFun (addTrades_congr (fun d inside => by rw [same d (logged d (early d inside)).1]) _) a) m
            rw [unchanged, same e (logged e member).1]
            exact prior.stamp before e rest whole
        have among : ∀ more rest, before = log ++ more →
            (es.filter fun e => (app'.exec e).state = .trade) = more ++ e :: rest →
            (app'.exec e).posnLots = (posnAfter app'.exec before (app'.exec e).accnt (app'.exec e).marketId).netLots ∧
            (app'.exec e).posnCost = (posnAfter app'.exec before (app'.exec e).accnt (app'.exec e).marketId).netCost :=
          fun more rest whole part => by
            have moreTrades : ∀ d ∈ more, (app'.exec d).state = .trade := fun d inside => by
              have filtered : d ∈ es.filter fun e => (app'.exec e).state = .trade := by
                rw [part]
                exact List.mem_append_left _ inside
              simpa using (List.mem_filter.mp filtered).2
            rw [whole, posnAfter_eq (List.forall_mem_append.mpr ⟨tradesBefore, moreTrades⟩), addTrades_append, ← posnBefore]
            exact stamps more e rest part
        cases List.append_eq_append_iff.mp split with
        | inl later =>
          obtain ⟨more, whole, part⟩ := later
          exact among more after whole part
        | inr earlier =>
          obtain ⟨rest, whole, part⟩ := earlier
          cases rest with
          | nil => exact among [] after (by rw [whole]; simp) part.symm
          | cons d rest =>
            obtain ⟨rfl, -⟩ := List.cons.inj part
            exact within before rest whole }

/-- The commit phase stamps the trades of an order. -/
theorem PriorStamps.of_stamped {es : List ExecPtr} (stamped : Stamped (app.view.ledger (app.execs.allocs news)) es app'.ledger)
    (filed : Filed app app' news es) : PriorStamps app app' (es.filter fun e => (app'.exec e).state = .trade) := by
  obtain ⟨l, start⟩ : ∃ l, l = app.view.ledger (app.execs.allocs news) := ⟨_, rfl⟩
  have posn : l.posn = app.view.posn := by rw [start]; rfl
  have entered := filed.entered
  rw [← start] at stamped entered
  intro before e after split
  obtain ⟨front, back, whole, rfl, tail⟩ := List.filter_eq_append_iff.mp split
  obtain ⟨skipped, rest, whole', quiet, trade, rfl⟩ := List.filter_eq_cons_iff.mp tail
  have state : (l.exec e).state = .trade := by
    rw [Exec.eq_posn (entered.unstamped e).symm]
    exact of_decide_eq_true trade
  have stamp : app'.exec e = _ := stamped.trades (front ++ skipped) e rest
    (by rw [whole, whole', List.append_assoc]) state
  -- What was skipped is no trade.
  have none_skipped : skipped.filter (fun e => (app'.exec e).state = .trade) = [] := List.filter_eq_nil_iff.mpr quiet
  have trades : front.filter (fun e => (app'.exec e).state = .trade) =
      (front ++ skipped).filter fun e => (app'.exec e).state = .trade := by
    rw [List.filter_append, none_skipped, List.append_nil]
  have same : addTrades app'.exec l.posn (front ++ skipped) = addTrades l.exec l.posn (front ++ skipped) :=
    addTrades_congr (fun d _ => entered.unstamped d) _
  rw [trades, addTrades_filter, ← posn, same, stamp]
  exact ⟨rfl, rfl⟩

theorem filedTrades_eq (filed : Filed app app' news es) :
    filedTrades op app app' =
      let made := (app.newAddresses news.length).filter fun e => (app'.exec e).state = .trade
      if op.manual then made.reverse else made := by
  rw [filedTrades, filed.fresh, Nat.add_sub_cancel_left]

/-- A call of `create_order`, or of one that changes orders. -/
theorem PriorPosns.stamped (prior : PriorPosns app log) (order : op.manual = false)
    (filed : Filed app app' news (app.newAddresses news.length))
    (stamped : Stamped (app.view.ledger (app.execs.allocs news)) (app.newAddresses news.length) app'.ledger) :
    PriorPosns app' (log ++ filedTrades op app app') := by
  refine prior.snoc filed (app.nodup_newAddresses _) ?_ (fun e old => ?_) (.of_stamped stamped filed)
  · rw [filedTrades_eq filed, order]
    rfl
  · have kept : app'.exec e = (app.execs.allocs news).get e := stamped.others e fun member => by
      obtain ⟨i, -, here⟩ := List.mem_map.mp member
      exact absurd old (not_lt.mpr (here ▸ Nat.le_add_right _ i))
    rw [kept, OrdMap.get, OrdMap.find_allocs_of_lt _ _ old]
    rfl

/-- A trade in a market that does not exist is not made. -/
theorem step_noMarket {a cpty : Symbol} {m lots ticks created : Int} {ref : Bytes} {side : Side} {liqInd : LiqInd}
    (missing : app.markets.find m = none) :
    app.step (.createTrade a m ref side lots ticks liqInd cpty created) = some (app.ensureSess a) := by
  have absent : ¬ ((app.ensureSess a).markets.find m).isSome := by simp [ensureSess, missing]
  simp only [App.step, call, withMarket]
  rw [if_neg absent]
  rfl

theorem PriorPosns.step (inv : app.Inv) (prior : PriorPosns app log) (balanced : op.Balanced app)
    (stepped : app.step op = some app') : PriorPosns app' (log ++ filedTrades op app app') := by
  cases step_filing inv stepped with
  | idle idle =>
    have exec : app'.exec = app.exec := congrArg OrdMap.get idle.execs
    have none_filed : filedTrades op app app' = [] := by
      have none_made : app.newAddresses (app'.execs.fresh - app.execs.fresh) = [] := by rw [idle.execs, Nat.sub_self]; rfl
      rw [filedTrades, none_made]
      exact ite_self []
    rw [none_filed, List.append_nil]
    exact
      { nodup := prior.nodup
        complete := by rw [idle.execs, exec]; exact prior.complete
        posn := fun a m => by rw [exec, ← prior.posn]; exact congrFun (congrFun idle.posn a) m
        stamp := by rw [exec]; exact prior.stamp }
  | created incoming made filed stamped numbered => exact prior.stamped rfl filed stamped
  | changed own made filed stamped numbered => exact prior.stamped rfl filed stamped
  | @oneSided a m ref side lots ticks liqInd cpty created trade _ made alone filed execs numbered =>
    have own : app'.exec app.execs.fresh = trade := by
      rw [App.exec, execs]
      exact OrdMap.get_put_self _ _ _
    have state : trade.state = .trade := by rw [made]; rfl
    have all : [app.execs.fresh].filter (fun e => (app'.exec e).state = .trade) = [app.execs.fresh] := by
      rw [List.filter_cons_of_pos (by rw [own, state]; rfl)]
      rfl
    refine prior.snoc filed (List.nodup_singleton _) ?_ (fun e old => ?_) ?_
    · rw [filedTrades_eq filed, all]
      show List.reverse (List.filter _ [app.execs.fresh]) = _
      rw [all]
      rfl
    · rw [App.exec, execs, OrdMap.get, OrdMap.find_allocs_of_lt _ _ old]
      rfl
    · rw [all]
      intro before e after split
      cases before with
      | nil =>
        obtain ⟨rfl, -⟩ := List.cons.inj split
        rw [own, made]
        exact ⟨rfl, rfl⟩
      | cons d before => simp at split
  | @twoSided a m ref side lots ticks liqInd cpty created trade other _ made opposite paired room filed execs numbered =>
    have read := OrdMap.map_get_allocs app.execs [trade, other]
    rw [← execs] at read
    obtain ⟨own, ownOther⟩ : app'.exec app.execs.fresh = trade ∧ app'.exec (app.execs.fresh + 1) = other := by
      simpa [List.range_succ, App.exec] using read
    have state : trade.state = .trade := by rw [made]; rfl
    have stateOther : other.state = .trade := by rw [opposite]; exact state
    have all : [app.execs.fresh + 1, app.execs.fresh].filter (fun e => (app'.exec e).state = .trade) =
        [app.execs.fresh + 1, app.execs.fresh] := by
      rw [List.filter_cons_of_pos (by rw [ownOther, stateOther]; rfl), List.filter_cons_of_pos (by rw [own, state]; rfl)]
      rfl
    have known : (app.markets.find m).isSome := Option.isSome_iff_ne_none.mpr fun missing => by
      rw [step_noMarket missing] at stepped
      cases stepped
      have grown := filed.fresh
      simp [ensureSess] at grown
    -- The position that the counter-party has is the one that its trade is stamped with.
    obtain ⟨self, lotsSame, costSame⟩ : (cpty = a → lots = 0) ∧ (app.view.posn cpty m).netLots = (app.view.posn a m).netLots ∧
        (app.view.posn cpty m).netCost = (app.view.posn a m).netCost := by
      cases balanced with
      | inl missing => exact absurd known (by simpa using missing)
      | inr balanced =>
        cases balanced with
        | inl short => exact absurd room (not_le.mpr short)
        | inr balanced => exact balanced.resolve_left (by simp [paired])
    refine prior.snoc filed (by simp) ?_ (fun e old => ?_) ?_
    · rw [filedTrades_eq filed, all]
      have ascending : (app.newAddresses 2).filter (fun e => (app'.exec e).state = .trade) =
          [app.execs.fresh, app.execs.fresh + 1] := by
        show List.filter _ [app.execs.fresh, app.execs.fresh + 1] = _
        rw [List.filter_cons_of_pos (by rw [own, state]; rfl), List.filter_cons_of_pos (by rw [ownOther, stateOther]; rfl)]
        rfl
      show ((app.newAddresses 2).filter _).reverse = _
      rw [ascending]
      rfl
    · rw [App.exec, execs, OrdMap.get, OrdMap.find_allocs_of_lt _ _ old]
      rfl
    · rw [all]
      intro before e after split
      cases before with
      | nil =>
        obtain ⟨rfl, -⟩ := List.cons.inj split
        rw [ownOther, opposite, made]
        exact ⟨lotsSame.symm, costSame.symm⟩
      | cons d before =>
        obtain ⟨rfl, last⟩ := List.cons.inj split
        cases before with
        | nil =>
          obtain ⟨rfl, -⟩ := List.cons.inj last
          have added : addTrades app'.exec app.view.posn [app.execs.fresh + 1] = addTrade app.view.posn cpty m other := by
            show (if (app'.exec (app.execs.fresh + 1)).state = .trade then addTrade app.view.posn _ _ _ else _) = _
            rw [ownOther, if_pos stateOther, opposite, made]
            rfl
          rw [own, added, made, addTrade]
          show (app.view.posn a m).netLots = (update app.view.posn cpty _ a m).netLots ∧
            (app.view.posn a m).netCost = (update app.view.posn cpty _ a m).netCost
          rw [update_apply]
          split
          next same =>
            have none_traded : other.lastLots = 0 := by rw [opposite, made]; exact self same.symm
            rw [update_self, none_traded, same]
            obtain ⟨netLots, netCost⟩ := ((app.view.posn cpty m).addTrade_zero other.side other.lastTicks)
            exact ⟨netLots.symm, netCost.symm⟩
          next => exact ⟨rfl, rfl⟩
        | cons d before => simp at last

theorem PriorPosns.make (capacity maxExecs : Nat) : PriorPosns (App.make capacity maxExecs) [] where
  nodup := .nil
  complete e := by simp [App.make]
  posn _ _ := rfl
  stamp before e after split := by simp at split

/-- Every trade of a run carries the position of its own account just before, as long as the counter-parties of manual
trades have the positions of the accounts. -/
theorem stamps_prior {capacity maxExecs : Nat} {ops : List Op} {app : App} {log : List ExecPtr}
    (run : Run logStep (fun s op => op.Balanced s.1) (App.make capacity maxExecs, []) ops (app, log)) :
    PriorPosns app log := by
  have kept := run.invariant (I := fun s => s.1.Inv ∧ PriorPosns s.1 s.2)
    (fun s op t kept balanced stepped => by
      obtain ⟨next, called, rfl⟩ := Option.map_eq_some_iff.mp stepped
      exact ⟨kept.1.step called, kept.2.step kept.1 balanced called⟩)
    ⟨.make capacity maxExecs, .make capacity maxExecs⟩
  exact kept.2

theorem stamps_prior_four :
    let a : Symbol := .assign (bytes "MARAYL")
    let b : Symbol := .assign (bytes "GOSAYL")
    let m := toMarketId 1 0
    ∃ app log, Run logStep (fun s op => op.Balanced s.1) (App.make 8 8, [])
        [.createMarket 1 (.assign (bytes "EURUSD")) 0 0 0, .createTrade a m [] .buy 10 3 .none b 1,
          .createOrder a m [] .sell 4 5 0 2 0, .createOrder b m [] .buy 4 5 0 3 0] (app, log) ∧
      log = [1, 0, 4, 5] ∧ (app.exec 4).posnLots = 10 ∧ (app.exec 5).posnLots = -10 ∧ PriorPosns app log := by
  intro a b m
  have made : ∃ s ∈ Run.exec logStep (fun s op => op.Balanced s.1) (App.make 8 8, [])
      [.createMarket 1 (.assign (bytes "EURUSD")) 0 0 0, .createTrade a m [] .buy 10 3 .none b 1,
        .createOrder a m [] .sell 4 5 0 2 0, .createOrder b m [] .buy 4 5 0 3 0],
      s.2 = [1, 0, 4, 5] ∧ (s.1.exec 4).posnLots = 10 ∧ (s.1.exec 5).posnLots = -10 := by decide
  obtain ⟨⟨app, log⟩, done, facts⟩ := made
  have run := Run.of_exec done
  exact ⟨app, log, run, facts.1, facts.2.1, facts.2.2, stamps_prior run⟩

/-- The trade of a counter-party is stamped with the position of the account. -/
theorem stamp_of_account :
    let a : Symbol := .assign (bytes "MARAYL")
    let b : Symbol := .assign (bytes "GOSAYL")
    let m := toMarketId 1 0
    ∃ app log, Run logStep (fun _ _ => True) (App.make 8 8, [])
        [.createMarket 1 (.assign (bytes "EURUSD")) 0 0 0, .createTrade a m [] .buy 10 3 .none (.assign []) 1,
          .createTrade a m [] .buy 5 3 .none b 2] (app, log) ∧
      ¬ PriorPosns app log := by
  intro a b m
  have made : ∃ s ∈ Run.exec logStep (fun _ _ => True) (App.make 8 8, [])
      [.createMarket 1 (.assign (bytes "EURUSD")) 0 0 0, .createTrade a m [] .buy 10 3 .none (.assign []) 1,
        .createTrade a m [] .buy 5 3 .none b 2],
      s.2 = [0, 2, 1] ∧ (s.1.exec 2).posnLots = 10 ∧
        (posnAfter s.1.exec [0] (s.1.exec 2).accnt (s.1.exec 2).marketId).netLots = 0 := by decide
  obtain ⟨⟨app, log⟩, done, logged, stamp, before⟩ := made
  refine ⟨app, log, Run.of_exec done, fun prior => ?_⟩
  have wrong := (prior.stamp [0] 2 [1] logged).1
  rw [stamp, before] at wrong
  cases wrong

end App

end Swirly
