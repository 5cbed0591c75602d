import Swirly.Verified.Recorded

/-!
# Trades in pairs, and what the positions add up to

Every match makes two trades that mirror each other, so over all accounts they come to nothing.  What the accounts of a
market hold together is what the trades without a counter-party have brought in.
-/

namespace Swirly

open Function

/-- The lots of a trade, as they count for a net position. -/
def signedLots (side : Side) (lots : Int) : Int := if side = .buy then lots else -lots

/-- A part of a position to which every trade adds its own share. -/
def Posn.Additive (part : Posn → Int) (share : Side → Int → Int → Int) : Prop :=
  part .make = 0 ∧ ∀ posn side lots ticks, part (posn.addTrade side lots ticks) = part posn + share side lots ticks

namespace Posn

theorem additive_buyLots : Additive buyLots fun side lots _ => if side = .buy then lots else 0 := by
  constructor
  · rfl
  · intro posn side lots ticks
    cases side <;> simp [addTrade, addBuy, addSell]

theorem additive_buyCost : Additive buyCost fun side lots ticks => if side = .buy then Swirly.cost lots ticks else 0 := by
  constructor
  · rfl
  · intro posn side lots ticks
    cases side <;> simp [addTrade, addBuy, addSell]

theorem additive_sellLots : Additive sellLots fun side lots _ => if side = .sell then lots else 0 := by
  constructor
  · rfl
  · intro posn side lots ticks
    cases side <;> simp [addTrade, addBuy, addSell]

theorem additive_sellCost : Additive sellCost fun side lots ticks => if side = .sell then Swirly.cost lots ticks else 0 := by
  constructor
  · rfl
  · intro posn side lots ticks
    cases side <;> simp [addTrade, addBuy, addSell]

theorem additive_netLots : Additive netLots fun side lots _ => signedLots side lots := by
  constructor
  · rfl
  · intro posn side lots ticks
    cases side <;> simp [addTrade, addBuy, addSell, netLots, signedLots] <;> omega

end Posn

/-- The share of an execution, if it is a trade of the market. -/
def Exec.share (share : Side → Int → Int → Int) (m : Int) (x : Exec) : Int :=
  if x.state = .trade ∧ x.marketId = m then share x.side x.lastLots x.lastTicks else 0

@[simp] theorem Exec.share_posn (share : Side → Int → Int → Int) (m : Int) (x : Exec) (lots cost : Int) :
    (x.posn lots cost).share share m = x.share share m := rfl

theorem Exec.share_opposite (share : Side → Int → Int → Int) (m : Int) (x : Exec) (id : Int) :
    (x.opposite id).share share m =
      if x.state = .trade ∧ x.marketId = m then share x.side.opposite x.lastLots x.lastTicks else 0 := rfl

/-- The two sides of a match. -/
structure Exec.Mirrors (x y : Exec) : Prop where
  state : x.state = .trade ∧ y.state = .trade
  marketId : x.marketId = y.marketId
  matchId : x.matchId = y.id ∧ y.matchId = x.id
  lastLots : x.lastLots = y.lastLots
  lastTicks : x.lastTicks = y.lastTicks
  side : x.side = y.side.opposite
  cpty : x.cpty = y.accnt ∧ y.cpty = x.accnt

theorem Exec.Mirrors.symm {x y : Exec} (mirrors : x.Mirrors y) : y.Mirrors x where
  state := mirrors.state.symm
  marketId := mirrors.marketId.symm
  matchId := mirrors.matchId.symm
  lastLots := mirrors.lastLots.symm
  lastTicks := mirrors.lastTicks.symm
  side := by rw [mirrors.side, Side.opposite_opposite]
  cpty := mirrors.cpty.symm

theorem Exec.Mirrors.posn {x y : Exec} (mirrors : x.Mirrors y) {lots cost lots' cost' : Int} :
    (x.posn lots cost).Mirrors (y.posn lots' cost') :=
  ⟨mirrors.state, mirrors.marketId, mirrors.matchId, mirrors.lastLots, mirrors.lastTicks, mirrors.side, mirrors.cpty⟩

theorem signedLots_opposite (side : Side) (lots : Int) : signedLots side.opposite lots + signedLots side lots = 0 := by
  cases side with
  | buy =>
    show -lots + lots = 0
    omega
  | sell =>
    show lots + -lots = 0
    omega

/-- Mirrored trades come to nothing. -/
theorem Exec.Mirrors.net {x y : Exec} (mirrors : x.Mirrors y) (m : Int) :
    x.share (fun side lots _ => signedLots side lots) m + y.share (fun side lots _ => signedLots side lots) m = 0 := by
  simp only [Exec.share, mirrors.state, mirrors.marketId, mirrors.side, mirrors.lastLots, true_and]
  split
  next => exact signedLots_opposite _ _
  next => rfl

namespace App

variable {app app' : App} {a : Symbol} {m : Int} {op : Op}

/-- What the trades of the account in the market add up to, archived or not. -/
def tradeSum (app : App) (a : Symbol) (m : Int) (share : Side → Int → Int → Int) : Int :=
  app.execs.sum fun x => if x.accnt = a then x.share share m else 0

/-- What the trades of the market add up to over all accounts. -/
def marketSum (app : App) (m : Int) (share : Side → Int → Int → Int) : Int := app.execs.sum fun x => x.share share m

/-- Every position is the sum of the trades of its account. -/
def Summed (app : App) : Prop :=
  ∀ part share, Posn.Additive part share → ∀ a m, part (app.posn (a, m)) = app.tradeSum a m share

theorem additive_addTrades {part : Posn → Int} {share : Side → Int → Int → Int} (additive : Posn.Additive part share)
    (exec : ExecPtr → Exec) (posn : Symbol → Int → Posn) (es : List ExecPtr) (a : Symbol) (m : Int) :
    part (addTrades exec posn es a m) =
      part (posn a m) + (es.map fun e => if (exec e).accnt = a then (exec e).share share m else 0).sum := by
  induction es generalizing posn with
  | nil => simp [addTrades]
  | cons e es inductionHypothesis =>
    rw [← List.singleton_append, addTrades_append, inductionHypothesis, List.map_append, List.sum_append, ← add_assoc]
    congr 1
    rw [addTrades_apply, List.map_singleton, List.sum_singleton]
    by_cases own : (exec e).state = .trade ∧ (exec e).accnt = a ∧ (exec e).marketId = m
    · rw [List.filter_cons_of_pos (by exact decide_eq_true own), if_pos own.2.1, Exec.share, if_pos ⟨own.1, own.2.2⟩]
      exact additive.2 _ _ _ _
    · rw [List.filter_cons_of_neg (by simpa using own)]
      have nothing : (if (exec e).accnt = a then (exec e).share share m else 0) = 0 := by
        by_cases accnt : (exec e).accnt = a
        · rw [if_pos accnt, Exec.share, if_neg fun here => own ⟨here.1, accnt, here.2⟩]
        · rw [if_neg accnt]
      rw [nothing, add_zero]
      rfl

/-- What the new executions add to any sum that does not depend on their stamps. -/
theorem Filed.sum {news : List Exec} {es : List ExecPtr} (filed : Filed app app' news es) (f : Exec → Int)
    (blind : ∀ x : Exec, f x.unstamped = f x) : app'.execs.sum f = app.execs.sum f + (news.map f).sum := by
  have unstamped : ∀ s : Store Exec, s.sum f = (s.map Exec.unstamped).sum f := by
    intro s
    simp only [OrdMap.sum, OrdMap.map, List.map_map, Function.comp_def, blind]
  rw [unstamped, filed.execs, ← unstamped, OrdMap.sum_allocs]

theorem Summed.filed {news : List Exec} {es : List ExecPtr} (summed : app.Summed) (filed : Filed app app' news es) :
    app'.Summed := by
  intro part share additive a m
  have posn : app'.posn (a, m) = addTrades (app.view.ledger (app.execs.allocs news)).exec app.view.posn es a m :=
    congrFun (congrFun filed.entered.posn a) m
  have whole : ∀ g : Exec → Int, (es.map fun e => g ((app.view.ledger (app.execs.allocs news)).exec e)).sum =
      (news.map g).sum := by
    intro g
    rw [(filed.addresses.map _).sum_eq]
    conv_rhs => rw [← map_newAddresses app news, List.map_map]
    rfl
  rw [posn, additive_addTrades additive, whole fun x => if x.accnt = a then x.share share m else 0, tradeSum,
    filed.sum _ fun _ => rfl]
  congr 1
  exact summed part share additive a m

theorem Summed.idle (summed : app.Summed) (idle : app.Idle app') : app'.Summed := by
  intro part share additive a m
  have posn : app'.posn (a, m) = app.posn (a, m) := congrFun (congrFun idle.posn a) m
  rw [posn, tradeSum, idle.execs]
  exact summed part share additive a m

theorem Summed.step (inv : app.Inv) (summed : app.Summed) (stepped : app.step op = some app') : app'.Summed := by
  cases (step_filing inv stepped).cases with
  | inl idle => exact summed.idle idle
  | inr reported =>
    obtain ⟨news, es, m, filed, -⟩ := reported
    exact summed.filed filed

/-- Over all accounts, the positions of a market are the sum of its trades. -/
theorem Summed.total (summed : app.Summed) {part : Posn → Int} {share : Side → Int → Int → Int}
    (additive : Posn.Additive part share) (m : Int) :
    (app.sesss.sum fun s => part (s.posn m)) = app.marketSum m share := by
  -- The accounts that have a session or a trade.
  obtain ⟨K, sessions, trades⟩ : ∃ K : Finset Symbol, (∀ a, (app.sesss.find a).isSome → a ∈ K) ∧
      ∀ e x, app.execs.find e = some x → x.accnt ∈ K := by
    refine ⟨(app.sesss.entries.map Prod.fst ++ app.execs.entries.map fun e => e.2.accnt).toFinset, fun a known => ?_,
      fun e x found => ?_⟩
    · obtain ⟨s, found⟩ := Option.isSome_iff_exists.mp known
      exact List.mem_toFinset.mpr (List.mem_append_left _ (List.mem_map.mpr ⟨_, OrdMap.mem_entries.mpr found, rfl⟩))
    · exact List.mem_toFinset.mpr (List.mem_append_right _ (List.mem_map.mpr ⟨_, OrdMap.mem_entries.mpr found, rfl⟩))
  rw [OrdMap.sum_eq_sum_get app.sesss sessions additive.1, marketSum, ← OrdMap.sum_parts app.execs (·.accnt) trades]
  exact Finset.sum_congr rfl fun a _ => summed part share additive a m

/-! ## Trades by hand -/

/-- A call, with the trades that `create_trade` has returned so far. -/
def manualStep (s : App × List (ExecPtr × Option ExecPtr)) (op : Op) : Option (App × List (ExecPtr × Option ExecPtr)) :=
  match s.1.call op with
  | .ok (.trades trade cptyTrade) app => some (app, s.2 ++ [(trade, cptyTrade)])
  | .ok .done app => some (app, s.2)
  | .ok (.response _) app => some (app, s.2)
  | .throw _ app => some (app, s.2)
  | .fault => none

/-- The net lots of the trades in the market that have no counter-party. -/
def manualNet (app : App) (m : Int) (manual : List (ExecPtr × Option ExecPtr)) : Int :=
  ((manual.filter fun x => x.2 = none).map fun x => (app.exec x.1).share (fun side lots _ => signedLots side lots) m).sum

structure Conserved (app : App) (manual : List (ExecPtr × Option ExecPtr)) : Prop where
  known : ∀ x ∈ manual, (app.execs.find x.1).isSome
  paired : ∀ e, app.Trade e → (∃ x ∈ manual, e = x.1 ∨ x.2 = some e) ∨
    ∃ d, app.Trade d ∧ (app.exec e).Mirrors (app.exec d)
  net : ∀ m, app.marketSum m (fun side lots _ => signedLots side lots) = manualNet app m manual

variable {manual more : List (ExecPtr × Option ExecPtr)} {news : List Exec} {es : List ExecPtr}

theorem manualNet_append (app : App) (m : Int) (manual more : List (ExecPtr × Option ExecPtr)) :
    manualNet app m (manual ++ more) = manualNet app m manual + manualNet app m more := by
  rw [manualNet, List.filter_append, List.map_append, List.sum_append]
  rfl

/-- What the new executions have to satisfy. -/
theorem Conserved.filed (conserved : app.Conserved manual) (filed : Filed app app' news es)
    (known : ∀ x ∈ more, (app'.execs.find x.1).isSome)
    (paired : ∀ (i : Nat) x, news[i]? = some x → x.state = .trade → (∃ y ∈ more, app.execs.fresh + i = y.1 ∨
      y.2 = some (app.execs.fresh + i)) ∨ ∃ y ∈ news, x.Mirrors y)
    (net : ∀ m, (news.map fun x => x.share (fun side lots _ => signedLots side lots) m).sum = manualNet app' m more) :
    app'.Conserved (manual ++ more) := by
  have old : ∀ e, (app.execs.find e).isSome → (app'.execs.find e).isSome ∧
      (app'.exec e).unstamped = (app.exec e).unstamped := by
    intro e present
    obtain ⟨x, found⟩ := Option.isSome_iff_exists.mp present
    obtain ⟨live, same⟩ := filed.old (OrdMap.lt_fresh found)
    exact ⟨live.trans present, same⟩
  exact
    { known := fun x member => by
        cases List.mem_append.mp member with
        | inl before => exact (old x.1 (conserved.known x before)).1
        | inr new => exact known x new
      paired := fun e trade => by
        cases filed.classify trade.present with
        | inl before =>
          obtain ⟨-, present, same⟩ := before
          have state : (app.exec e).state = .trade := by
            rw [← trade.state, Exec.eq_posn same]
            rfl
          cases conserved.paired e ⟨present, state⟩ with
          | inl listed =>
            obtain ⟨x, member, here⟩ := listed
            exact .inl ⟨x, List.mem_append_left _ member, here⟩
          | inr mirrored =>
            obtain ⟨d, tradeD, mirrors⟩ := mirrored
            obtain ⟨liveD, sameD⟩ := old d tradeD.present
            refine .inr ⟨d, ⟨liveD, ?_⟩, ?_⟩
            · rw [Exec.eq_posn sameD]
              exact tradeD.state
            · rw [Exec.eq_posn same, Exec.eq_posn sameD]
              exact mirrors.posn
        | inr new =>
          obtain ⟨i, x, rfl, at_i, same⟩ := new
          have state : x.state = .trade := by
            rw [← trade.state, Exec.eq_posn same]
            rfl
          cases paired i x at_i state with
          | inl listed =>
            obtain ⟨y, member, here⟩ := listed
            exact .inl ⟨y, List.mem_append_right _ member, here⟩
          | inr mirrored =>
            obtain ⟨y, member, mirrors⟩ := mirrored
            obtain ⟨j, at_j⟩ := List.mem_iff_getElem?.mp member
            obtain ⟨present, _, _, stored⟩ := filed.stored at_j
            refine .inr ⟨_, ⟨present, ?_⟩, ?_⟩
            · rw [stored]
              exact mirrors.state.2
            · rw [stored, Exec.eq_posn same]
              exact mirrors.posn
      net := fun m => by
        have before : manualNet app' m manual = manualNet app m manual := by
          rw [manualNet, manualNet]
          congr 1
          refine List.map_congr_left fun x member => ?_
          rw [Exec.eq_posn (old x.1 (conserved.known x (List.mem_filter.mp member).1)).2]
          rfl
        rw [manualNet_append, before, ← conserved.net m, ← net m]
        exact filed.sum _ fun _ => rfl }

theorem Conserved.idle (conserved : app.Conserved manual) (execs : app'.execs = app.execs) : app'.Conserved manual := by
  have exec : app'.exec = app.exec := by
    funext e
    rw [exec, execs]
    rfl
  obtain ⟨known, paired, net⟩ := conserved
  exact
    { known := by rw [execs]; exact known
      paired := fun e trade => by
        obtain ⟨present, state⟩ := trade
        rw [execs] at present
        rw [exec] at state ⊢
        cases paired e ⟨present, state⟩ with
        | inl listed => exact .inl listed
        | inr mirrored =>
          obtain ⟨d, tradeD, mirrors⟩ := mirrored
          exact .inr ⟨d, ⟨execs ▸ tradeD.present, exec ▸ tradeD.state⟩, mirrors⟩
      net := fun m => by
        rw [marketSum, execs, manualNet, exec]
        exact net m }

/-! ## Steps -/

theorem Fill.mirrors {h : Heap} {o : Order} {now : Int} {f : Fill} (market : (h.order f.maker).marketId = o.marketId)
    (side : (h.order f.maker).side = o.side.opposite) : (f.makerExec h o now).Mirrors (f.takerExec h o now) where
  state := ⟨rfl, rfl⟩
  marketId := market
  matchId := ⟨rfl, rfl⟩
  lastLots := rfl
  lastTicks := rfl
  side := side
  cpty := ⟨rfl, rfl⟩

/-- The executions of a new order: matches come in pairs. -/
theorem newReports_mirror (inv : app.Inv) {o : Order} (new : New app a m o) (state : o.state = .new) (now : Int) :
    (∀ x ∈ newReports app o now (app.incomingFills m o), x.state = .trade →
      ∃ y ∈ newReports app o now (app.incomingFills m o), x.Mirrors y) ∧
    ∀ n, ((newReports app o now (app.incomingFills m o)).map fun x => x.share (fun side lots _ => signedLots side lots) n).sum = 0 := by
  have mirrors : ∀ f ∈ app.incomingFills m o, (f.makerExec app.heap o now).Mirrors (f.takerExec app.heap o now) := by
    intro f member
    obtain ⟨market, side⟩ := inv.live.home (mem_fillsOf member).1
    exact Fill.mirrors (market.trans new.marketId.symm) side
  constructor
  · intro x member trade
    cases List.mem_cons.mp member with
    | inl first =>
      rw [first] at trade
      exact absurd (state.symm.trans trade) nofun
    | inr later =>
      obtain ⟨f, inside, made⟩ := List.mem_flatMap.mp later
      have both : ∀ y ∈ f.execs app.heap o now, y ∈ newReports app o now (app.incomingFills m o) := fun y made =>
        List.mem_cons_of_mem _ (List.mem_flatMap.mpr ⟨f, inside, made⟩)
      cases List.mem_pair.mp made with
      | inl maker =>
        rw [maker]
        exact ⟨_, both _ (by simp [Fill.execs]), mirrors f inside⟩
      | inr taker =>
        rw [taker]
        exact ⟨_, both _ (by simp [Fill.execs]), (mirrors f inside).symm⟩
  · intro n
    rw [newReports, List.map_cons, List.sum_cons, Exec.share, if_neg fun both => ?_, zero_add]
    · generalize app.incomingFills m o = fs at mirrors
      induction fs with
      | nil => rfl
      | cons f fs inductionHypothesis =>
        obtain ⟨first, mirrors⟩ := List.forall_mem_cons.mp mirrors
        rw [List.flatMap_cons, List.map_append, List.sum_append, inductionHypothesis mirrors, add_zero]
        simpa [Fill.execs] using first.net n
    · exact absurd (state.symm.trans both.1) nofun

/-- Operations other than `create_trade`. -/
theorem Conserved.filing (inv : app.Inv) (conserved : app.Conserved manual) (filing : Filing app op app')
    (other : op.manual = false) : app'.Conserved manual := by
  rw [← List.append_nil manual]
  cases filing with
  | idle idle =>
    rw [List.append_nil]
    exact conserved.idle idle.execs
  | created incoming made filed stamped numbered =>
    obtain ⟨mirrored, nothing⟩ := newReports_mirror inv (incoming ▸ incoming_new) (by rw [incoming]; rfl) _
    rw [made] at filed
    exact conserved.filed filed (by simp)
      (fun i x at_i trade => .inr (mirrored x (List.mem_of_getElem? at_i) trade)) nothing
  | @changed a m change target now ps news _ own made filed stamped numbered =>
    have quiet := reportsOf_state app.heap change now (app.view.maxId m) ps own
    rw [← made] at quiet
    refine conserved.filed filed (by simp) (fun i x at_i trade => absurd trade (quiet x (List.mem_of_getElem? at_i)).2)
      fun n => ?_
    refine List.sum_eq_zero fun y member => ?_
    obtain ⟨x, listed, rfl⟩ := List.mem_map.mp member
    exact if_neg fun both => (quiet x listed).2 both.1
  | oneSided => cases other
  | twoSided => cases other

/-- How `create_trade` ends. -/
theorem Conserved.traded {trade : Exec} {cpty : Symbol} {result : ExecPtr × Option ExecPtr} (conserved : app.Conserved manual)
    (traded : Traded app a m trade cpty (.ok result app')) (accnt : trade.accnt = a) (marketId : trade.marketId = m)
    (state : trade.state = .trade) (named : trade.cpty = cpty) (id : trade.id = app.view.maxId m + 1) :
    app'.Conserved (manual ++ [result]) := by
  have filed := traded.filed accnt marketId state named id
  cases traded with
  | oneSided alone =>
    cases filed with
    | inr paired => rw [alone] at paired; cases paired.1
    | inl single =>
      obtain ⟨-, filed, -, -⟩ := single
      obtain ⟨present, _, _, stored⟩ := filed.stored (i := 0) rfl
      refine conserved.filed filed (by simpa using present) (fun i x at_i _ => ?_) fun n => ?_
      · obtain ⟨rfl, -⟩ : i = 0 ∧ _ := by simpa [List.getElem?_singleton] using at_i
        exact .inl ⟨_, List.mem_singleton_self _, .inl rfl⟩
      · have stored : app'.exec app.execs.fresh = trade.posn _ _ := stored
        simp [manualNet, stored]
  | twoSided paired =>
    cases filed with
    | inl single => rw [paired] at single; cases single.1
    | inr both =>
      obtain ⟨-, -, filed, -, -⟩ := both
      obtain ⟨present, _, _, stored⟩ := filed.stored (i := 0) rfl
      refine conserved.filed filed (by simpa using present) (fun i x at_i _ => ?_) fun n => ?_
      · cases i with
        | zero => exact .inl ⟨_, List.mem_singleton_self _, .inl rfl⟩
        | succ i =>
          obtain ⟨rfl, -⟩ : i = 0 ∧ _ := by simpa [List.getElem?_singleton] using at_i
          exact .inl ⟨_, List.mem_singleton_self _, .inr rfl⟩
      · -- The two trades are on opposite sides.
        have net : trade.share (fun side lots _ => signedLots side lots) n +
            (trade.opposite (app.view.maxId m + 2)).share (fun side lots _ => signedLots side lots) n = 0 := by
          rw [Exec.share_opposite, Exec.share]
          split
          next => rw [Int.add_comm]; exact signedLots_opposite _ _
          next => rfl
        simpa [manualNet] using net

/-- A call that does not return a trade. -/
theorem Traded.thrown {trade : Exec} {cpty : Symbol} {e : Exception} (traded : Traded app a m trade cpty (.throw e app')) :
    app'.execs = app.execs := by
  cases traded with
  | unjournaled restored => exact restored.execs

theorem Conserved.step (inv : app.Inv) (conserved : app.Conserved manual)
    (stepped : manualStep (app, manual) op = some (app', more)) : app.step op = some app' ∧ app'.Conserved more := by
  rw [manualStep] at stepped
  cases byHand : op.manual with
  | false =>
    have silent : ∀ trade cptyTrade next, app.call op ≠ .ok (.trades trade cptyTrade) next := by
      intro trade cptyTrade next called
      cases op with
      | sess => cases called
      | createMarket => obtain ⟨_, -, same⟩ := map_ok called; cases same
      | updateMarket => obtain ⟨_, -, same⟩ := map_ok (withMarket_ok called); cases same
      | createOrder => obtain ⟨_, -, same⟩ := map_ok (withMarket_ok called); cases same
      | changeOrder => obtain ⟨_, -, same⟩ := map_ok (withMarket_ok called); cases same
      | createTrade => cases byHand
      | archiveExec => obtain ⟨_, -, same⟩ := map_ok called; cases same
      | archiveTrade => obtain ⟨_, -, same⟩ := map_ok called; cases same
      | archiveTrades => obtain ⟨_, -, same⟩ := map_ok called; cases same
      | pop => cases called
    have done : app.step op = some app' ∧ manual = more := by
      rw [App.step]
      split at stepped
      next called => exact absurd called (silent _ _ _)
      next called => rw [show app.call op = _ from called]; cases stepped; exact ⟨rfl, rfl⟩
      next called => rw [show app.call op = _ from called]; cases stepped; exact ⟨rfl, rfl⟩
      next called => rw [show app.call op = _ from called]; cases stepped; exact ⟨rfl, rfl⟩
      next => cases stepped
    obtain ⟨done, rfl⟩ := done
    exact ⟨done, conserved.filing inv (step_filing inv done) byHand⟩
  | true =>
    cases op with
    | createTrade a m ref side lots ticks liqInd cpty created =>
      have traded := createTrade_spec (inv.ensureSess a) a m ref side lots ticks liqInd cpty created
      have start : (app.ensureSess a).Conserved manual := conserved.idle rfl
      have called : app.call (.createTrade a m ref side lots ticks liqInd cpty created) =
          (app.ensureSess a).withMarket m (((app.ensureSess a).createTrade a m ref side lots ticks liqInd cpty created).map
            fun result => .trades result.1 result.2) := rfl
      simp only [App.step]
      rw [called, withMarket] at stepped ⊢
      by_cases known : ((app.ensureSess a).markets.find m).isSome
      · rw [if_pos known] at stepped ⊢
        generalize (app.ensureSess a).createTrade a m ref side lots ticks liqInd cpty created = outcome at traded stepped
        cases outcome with
        | ok result next =>
          cases stepped
          exact ⟨rfl, start.traded traded rfl rfl rfl rfl rfl⟩
        | throw e next =>
          cases stepped
          exact ⟨rfl, start.idle traded.thrown⟩
        | fault => cases stepped
      · rw [if_neg known] at stepped ⊢
        cases stepped
        exact ⟨rfl, start⟩
    | sess | createMarket | updateMarket | createOrder | changeOrder | archiveExec | archiveTrade | archiveTrades | pop =>
      cases byHand

theorem conserved_make (capacity maxExecs : Nat) : (App.make capacity maxExecs).Conserved [] where
  known _ member := by cases member
  paired _ trade := by cases trade.present
  net _ := rfl

theorem summed_make (capacity maxExecs : Nat) : (App.make capacity maxExecs).Summed := fun _ _ additive _ _ => additive.1

/-- What the trades and the positions of a run come to. -/
structure Reconciled (app : App) (manual : List (ExecPtr × Option ExecPtr)) : Prop where
  /-- A trade that was not entered by hand is one side of a match. -/
  paired : ∀ e, app.Trade e → (∃ x ∈ manual, e = x.1 ∨ x.2 = some e) ∨
    ∃ d, app.Trade d ∧ (app.exec e).Mirrors (app.exec d)
  buyLots : ∀ a m, (app.posn (a, m)).buyLots = app.tradeSum a m fun side lots _ => if side = .buy then lots else 0
  buyCost : ∀ a m, (app.posn (a, m)).buyCost =
    app.tradeSum a m fun side lots ticks => if side = .buy then cost lots ticks else 0
  sellLots : ∀ a m, (app.posn (a, m)).sellLots = app.tradeSum a m fun side lots _ => if side = .sell then lots else 0
  sellCost : ∀ a m, (app.posn (a, m)).sellCost =
    app.tradeSum a m fun side lots ticks => if side = .sell then cost lots ticks else 0
  netLots : ∀ m, (app.sesss.sum fun s => (s.posn m).netLots) = app.manualNet m manual

/-- Trades are paired, and positions conserve quantity. -/
theorem trades_reconciled {capacity maxExecs : Nat} {ops : List Op} {s : App × List (ExecPtr × Option ExecPtr)}
    (run : Run manualStep (fun _ _ => True) (App.make capacity maxExecs, []) ops s) : Reconciled s.1 s.2 := by
  have kept : s.1.Inv ∧ s.1.Summed ∧ s.1.Conserved s.2 := by
    refine run.invariant (I := fun s => s.1.Inv ∧ s.1.Summed ∧ s.1.Conserved s.2) (fun t op u kept _ stepped => ?_)
      ⟨.make _ _, summed_make _ _, conserved_make _ _⟩
    obtain ⟨inv, summed, conserved⟩ := kept
    obtain ⟨done, next⟩ := conserved.step inv stepped
    exact ⟨inv.step done, summed.step inv done, next⟩
  obtain ⟨-, summed, conserved⟩ := kept
  exact
    { paired := conserved.paired
      buyLots := summed _ _ Posn.additive_buyLots
      buyCost := summed _ _ Posn.additive_buyCost
      sellLots := summed _ _ Posn.additive_sellLots
      sellCost := summed _ _ Posn.additive_sellCost
      netLots := fun m => (summed.total Posn.additive_netLots m).trans (conserved.net m) }

/-- An account that trades with itself, with another account and by hand. -/
theorem trades_reconciled_self :
    let a : Symbol := .assign (bytes "MARAYL")
    let b : Symbol := .assign (bytes "GOSAYL")
    let m := toMarketId 1 0
    ∃ s, Run manualStep (fun _ _ => True) (App.make 16 16, [])
        [.createMarket 1 (.assign (bytes "EURUSD")) 0 0 0, .createOrder a m [] .sell 3 5 0 2 0,
          .createOrder b m [] .sell 4 5 0 3 0, .createOrder a m [] .buy 10 6 0 4 0,
          .createTrade a m [] .buy 2 7 .none default 5] s ∧
      Reconciled s.1 s.2 ∧ s.1.manualNet m s.2 = 2 ∧ (s.1.posn (b, m)).sellCost = 20 := by
  intro a b m
  have made : ∃ s ∈ Run.exec manualStep (fun _ _ => True) (App.make 16 16, [])
      [.createMarket 1 (.assign (bytes "EURUSD")) 0 0 0, .createOrder a m [] .sell 3 5 0 2 0,
        .createOrder b m [] .sell 4 5 0 3 0, .createOrder a m [] .buy 10 6 0 4 0,
        .createTrade a m [] .buy 2 7 .none default 5],
      s.1.manualNet m s.2 = 2 ∧ (s.1.posn (b, m)).sellCost = 20 := by decide
  obtain ⟨s, done, net, sold⟩ := made
  exact ⟨s, .of_exec done, trades_reconciled (.of_exec done), net, sold⟩

end App

end Swirly
