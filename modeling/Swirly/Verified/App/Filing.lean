import Swirly.Verified.App.Step

/-!
# What a call files

A call that commits makes its reports, journals them and files each of them once.  `Filed` says so of every kind of
call: in the sequence of their addresses, but for a manual trade with a counter-party, whose trade comes first.
-/

namespace Swirly

open Function MarketSide

namespace Ledger

variable {l : Ledger} {e : ExecPtr} {a : Symbol} {m : Int}

theorem unstamped_book (l : Ledger) (a : Symbol) (m : Int) (e d : ExecPtr) :
    ((l.book a m e).exec d).unstamped = (l.exec d).unstamped := by
  show Exec.unstamped ((l.execs.put e _).get d) = _
  rw [OrdMap.get_put]
  split
  next same => rw [same]; rfl
  next => rfl

/-- A trade that belongs to the account and the market. -/
structure Owns (l : Ledger) (a : Symbol) (m : Int) (e : ExecPtr) : Prop where
  state : (l.exec e).state = .trade
  accnt : (l.exec e).accnt = a
  marketId : (l.exec e).marketId = m

theorem Owns.enter (owns : l.Owns a m e) : l.enter e = l.book a m e := by
  rw [Ledger.enter, if_pos owns.state, owns.accnt, owns.marketId]

theorem Owns.book {b : Symbol} {n : Int} {d : ExecPtr} (owns : l.Owns a m e) : (l.book b n d).Owns a m e := by
  have same := Exec.eq_posn (unstamped_book l b n d e)
  refine ⟨?_, ?_, ?_⟩
  · rw [same]
    exact owns.state
  · rw [same]
    exact owns.accnt
  · rw [same]
    exact owns.marketId

/-- Reports that are no trades only go to the history. -/
theorem foldl_enter_push (es : List ExecPtr) (l : Ledger)
    (others : ∀ e ∈ es, (l.exec e).accnt = a ∧ (l.exec e).state ≠ .trade) :
    es.foldl Ledger.enter l = es.foldl (fun l e => l.push a e) l := by
  induction es generalizing l with
  | nil => rfl
  | cons e es inductionHypothesis =>
    obtain ⟨⟨accnt, state⟩, others⟩ := List.forall_mem_cons.mp others
    rw [List.foldl_cons, List.foldl_cons, Ledger.enter, if_neg state, accnt]
    exact inductionHypothesis _ others

end Ledger

/-- Trades are entered by hand with `create_trade`. -/
def Op.manual : Op → Bool
  | createTrade .. => true
  | _ => false

namespace App

variable {app app' : App} {a : Symbol} {m now : Int} {op : Op}

/-- The addresses of the reports that a call makes. -/
def newAddresses (app : App) (n : Nat) : List ExecPtr := (List.range n).map (app.execs.fresh + ·)

theorem nodup_newAddresses (app : App) (n : Nat) : (app.newAddresses n).Nodup :=
  List.nodup_range.map fun i j same => by simpa using same

theorem present_newAddresses (app : App) (news : List Exec) :
    ∀ e ∈ app.newAddresses news.length, ((app.view.ledger (app.execs.allocs news)).execs.find e).isSome := by
  intro e member
  obtain ⟨i, small, rfl⟩ := List.mem_map.mp member
  exact OrdMap.isSome_find_allocs _ _ (by omega) (by have := List.mem_range.mp small; omega)

/-- The reports are what is read back at their addresses. -/
theorem map_newAddresses (app : App) (news : List Exec) :
    (app.newAddresses news.length).map (app.view.ledger (app.execs.allocs news)).exec = news :=
  OrdMap.map_get_allocs _ _

/-- What a call that commits makes, journals and files. -/
structure Filed (app app' : App) (news : List Exec) (es : List ExecPtr) : Prop where
  addresses : es.Perm (app.newAddresses news.length)
  journaled : app.mq.Journaled news app'.mq
  entered : Entered (app.view.ledger (app.execs.allocs news)) es app'.ledger

/-- The ids of the reports follow one another, from `id` on. -/
def Consecutive (id : Int) (news : List Exec) : Prop := ∀ (i : Nat) (x : Exec), news[i]? = some x → x.id = id + i

theorem Consecutive.nil (id : Int) : Consecutive id [] := fun _ _ found => by simp at found

theorem Consecutive.cons {id : Int} {x : Exec} {news : List Exec} (first : x.id = id) (rest : Consecutive (id + 1) news) :
    Consecutive id (x :: news) := fun i y found => by
  cases i with
  | zero =>
    obtain rfl : x = y := by simpa using found
    simpa using first
  | succ i =>
    have later := rest i y (by simpa using found)
    push_cast
    omega

/-- The reports have the next ids of a market, and the trades among them belong to it. -/
structure Numbered (app app' : App) (news : List Exec) (m : Int) : Prop where
  maxId : app'.view.maxId = update app.view.maxId m (app.view.maxId m + news.length)
  ids : Consecutive (app.view.maxId m + 1) news
  market : ∀ x ∈ news, x.state = .trade → x.marketId = m

/-- A call that files nothing. -/
structure Idle (app app' : App) : Prop where
  execs : app'.execs = app.execs
  silent : app.mq.Silent app'.mq
  history : app'.view.history = app.view.history
  trades : ∀ a k e, (app'.view.trades a).find k = some e → (app.view.trades a).find k = some e
  posn : app'.view.posn = app.view.posn
  grown : ∀ m, app.view.maxId m ≤ app'.view.maxId m

theorem Filed.fresh {news : List Exec} {es : List ExecPtr} (filed : Filed app app' news es) : app'.execs.fresh = app.execs.fresh + news.length := by
  rw [← OrdMap.fresh_allocs]
  exact OrdMap.fresh_congr filed.entered.live

/-- What was there before is as it was. -/
theorem Filed.old {news : List Exec} {es : List ExecPtr} (filed : Filed app app' news es) {e : Nat} (old : e < app.execs.fresh) :
    (app'.execs.find e).isSome = (app.execs.find e).isSome ∧ (app'.exec e).unstamped = (app.exec e).unstamped := by
  have same : (app.execs.allocs news).find e = app.execs.find e := OrdMap.find_allocs_of_lt _ _ old
  refine ⟨(filed.entered.live e).trans (by rw [← same]; rfl), (filed.entered.unstamped e).trans ?_⟩
  show Exec.unstamped ((app.execs.allocs news).get e) = Exec.unstamped (app.execs.get e)
  rw [OrdMap.get, same]
  rfl

/-- The execution as it was made; only its stamp may have come later. -/
theorem Filed.exec {news : List Exec} {es : List ExecPtr} (filed : Filed app app' news es) (e : ExecPtr) :
    ∃ lots cost, app'.exec e = ((app.view.ledger (app.execs.allocs news)).exec e).posn lots cost :=
  ⟨_, _, Exec.eq_posn (filed.entered.unstamped e)⟩

/-- Apart from the stamps, the executions are the old ones and the new reports. -/
theorem Filed.execs {news : List Exec} {es : List ExecPtr} (filed : Filed app app' news es) :
    app'.execs.map Exec.unstamped = (app.execs.allocs news).map Exec.unstamped := by
  refine OrdMap.ext_find fun e => ?_
  have live : (app'.execs.find e).isSome = ((app.execs.allocs news).find e).isSome := filed.entered.live e
  rw [OrdMap.find_map, OrdMap.find_map]
  cases found : (app.execs.allocs news).find e with
  | none =>
    rw [found] at live
    rw [Option.isNone_iff_eq_none.mp (Option.isSome_eq_false_iff.mp live)]
  | some x =>
    rw [found] at live
    rw [OrdMap.find_eq_some_get live, Option.map_some, Option.map_some, ← OrdMap.get_of_find found]
    exact congrArg some (filed.entered.unstamped e)

/-- Each report goes to the history of its account. -/
theorem Filed.history {news : List Exec} {es : List ExecPtr} (filed : Filed app app' news es) (a : Symbol) :
    (app'.sess a).execs = pushAll app.maxExecs (app.sess a).execs (es.filter fun e => (app'.exec e).accnt = a) := by
  rw [show (app'.sess a).execs = app'.ledger.history a from rfl, filed.entered.history]
  congr 1
  refine List.filter_congr fun e _ => ?_
  obtain ⟨lots, cost, same⟩ := filed.exec e
  rw [same]
  rfl

/-! ## Creating an order -/

/-- The trades of the fills are at their addresses. -/
theorem Fill.exec_trades {h : Heap} {o : Order} {fs : List Fill} {exec : ExecPtr → Exec}
    (made : (fs.flatMap Fill.trades).map exec = fs.flatMap (Fill.execs h o now)) :
    ∀ f ∈ fs, exec f.makerTrade = f.makerExec h o now ∧ exec (f.makerTrade + 1) = f.takerExec h o now := by
  induction fs with
  | nil => simp
  | cons f fs inductionHypothesis =>
    rw [List.flatMap_cons, List.flatMap_cons, List.map_append] at made
    obtain ⟨first, rest⟩ := List.append_inj made rfl
    obtain ⟨maker, taker⟩ : exec f.makerTrade = f.makerExec h o now ∧ exec (f.makerTrade + 1) = f.takerExec h o now := by
      simpa [Fill.trades, Fill.execs] using first
    exact List.forall_mem_cons.mpr ⟨⟨maker, taker⟩, inductionHypothesis rest⟩

/-- The commit loop enters the trades of the fills. -/
theorem foldl_bookMatch (h : Heap) (fs : List Fill) (l : Ledger)
    (owned : ∀ f ∈ fs, l.Owns (h.order f.maker).accnt m f.makerTrade ∧ l.Owns a m (f.makerTrade + 1)) :
    (fs.map fun f => f.toMatch h m).foldl (bookMatch a m) l = (fs.flatMap Fill.trades).foldl Ledger.enter l := by
  induction fs generalizing l with
  | nil => rfl
  | cons f fs inductionHypothesis =>
    obtain ⟨⟨maker, taker⟩, owned⟩ := List.forall_mem_cons.mp owned
    rw [List.map_cons, List.foldl_cons, List.flatMap_cons, List.foldl_append]
    have step : f.trades.foldl Ledger.enter l = bookMatch a m l (f.toMatch h m) := by
      show (l.enter f.makerTrade).enter (f.makerTrade + 1) = _
      rw [maker.enter, taker.book.enter]
      rfl
    rw [step]
    exact inductionHypothesis _ fun g member => ⟨(owned g member).1.book.book, (owned g member).2.book.book⟩

theorem incoming_trades (app : App) (m : Int) (o : Order) (now : Int) :
    app.newAddresses (newReports app o now (app.incomingFills m o)).length =
      app.execs.fresh :: (app.incomingFills m o).flatMap Fill.trades := by
  rw [newAddresses, newReports, List.length_cons, length_execs, Nat.add_comm, List.range_add, List.map_append,
    incomingFills, fillsOf_trades, List.map_map]
  have shift : ∀ i, app.execs.fresh + (1 + i) = app.execs.fresh + 1 + i := fun i => (Nat.add_assoc _ 1 i).symm
  simp only [Function.comp_def, shift]
  rfl

theorem Fill.ids_number (h : Heap) (o : Order) (now : Int) (sums : Sums) (id : Int) (e : ExecPtr)
    (xs : List (OrderPtr × Int)) :
    Consecutive (id + 1) ((Fill.number h sums id e xs).flatMap (Fill.execs h o now)) := by
  induction xs generalizing sums id e with
  | nil => exact .nil _
  | cons x xs inductionHypothesis =>
    obtain ⟨q, lots⟩ := x
    rw [Fill.number_cons, List.flatMap_cons]
    refine .cons rfl (.cons rfl ?_)
    rw [show id + 1 + 1 + 1 = id + 2 + 1 by omega]
    exact inductionHypothesis _ _ _

theorem created_numbered (inv : app.Inv) {o : Order} (new : New app a m o) (state : o.state = .new)
    (maxId : app'.view.maxId = update app.view.maxId m (app.view.maxId m + 1 + 2 * (app.incomingFills m o).length)) :
    Numbered app app' (newReports app o now (app.incomingFills m o)) m where
  maxId := by
    rw [maxId, newReports, List.length_cons, length_execs]
    congr 1
    push_cast
    omega
  ids := .cons new.id (Fill.ids_number _ _ _ _ _ _ _)
  market := List.forall_mem_cons.mpr ⟨fun trade => absurd (state.symm.trans trade) nofun, fun x member _ => by
    obtain ⟨f, inside, made⟩ := List.mem_flatMap.mp member
    cases List.mem_pair.mp made with
    | inl maker => rw [maker]; exact inv.live.market m _ f.maker (mem_fillsOf inside).1
    | inr taker => rw [taker]; exact new.marketId⟩

/-- The reports of a new order, at their addresses. -/
theorem exec_newReports (app : App) (m : Int) (o : Order) (now : Int) {l : Ledger}
    (start : l = app.view.ledger (app.execs.allocs (newReports app o now (app.incomingFills m o)))) :
    l.exec app.execs.fresh = .make o o.id now ∧ ∀ f ∈ app.incomingFills m o,
      l.exec f.makerTrade = f.makerExec app.heap o now ∧ l.exec (f.makerTrade + 1) = f.takerExec app.heap o now := by
  have read := map_newAddresses app (newReports app o now (app.incomingFills m o))
  rw [incoming_trades, ← start, List.map_cons, newReports] at read
  obtain ⟨first, trades⟩ := List.cons.inj read
  exact ⟨first, Fill.exec_trades trades⟩

theorem created_ledger (inv : app.Inv) {o : Order} (new : New app a m o) (state : o.state = .new) :
    createdLedger app a m o now (app.incomingFills m o) =
      (app.newAddresses (newReports app o now (app.incomingFills m o)).length).foldl Ledger.enter
        (app.view.ledger (app.execs.allocs (newReports app o now (app.incomingFills m o)))) := by
  obtain ⟨fs, fills⟩ : ∃ fs, fs = app.incomingFills m o := ⟨_, rfl⟩
  obtain ⟨l, start⟩ : ∃ l, l = app.view.ledger (app.execs.allocs (newReports app o now fs)) := ⟨_, rfl⟩
  obtain ⟨first, trades⟩ := exec_newReports app m o now (fills ▸ start)
  rw [← fills] at trades
  have own : (l.exec app.execs.fresh).accnt = a ∧ (l.exec app.execs.fresh).state ≠ .trade := by
    rw [first]
    exact ⟨new.accnt, by show o.state ≠ .trade; rw [state]; nofun⟩
  rw [incoming_trades, createdLedger, ← fills, ← start, List.foldl_cons, Ledger.enter, if_neg own.2, own.1]
  refine foldl_bookMatch _ _ _ fun f member => ?_
  obtain ⟨maker, taker⟩ := trades f member
  have marketId : (app.heap.order f.maker).marketId = m :=
    inv.live.market m _ f.maker (mem_fillsOf (fills ▸ member : f ∈ app.incomingFills m o)).1
  refine ⟨⟨?_, ?_, ?_⟩, ⟨?_, ?_, ?_⟩⟩
  · show (l.exec f.makerTrade).state = _
    rw [maker]
    rfl
  · show (l.exec f.makerTrade).accnt = _
    rw [maker]
    rfl
  · show (l.exec f.makerTrade).marketId = _
    rw [maker]
    exact marketId
  · show (l.exec (f.makerTrade + 1)).state = _
    rw [taker]
    rfl
  · show (l.exec (f.makerTrade + 1)).accnt = _
    rw [taker]
    exact new.accnt
  · show (l.exec (f.makerTrade + 1)).marketId = _
    rw [taker]
    exact new.marketId

theorem Filed.of_enter {news : List Exec} (journaled : app.mq.Journaled news app'.mq)
    (ledger : app'.ledger = (app.newAddresses news.length).foldl Ledger.enter (app.view.ledger (app.execs.allocs news))) :
    Filed app app' news (app.newAddresses news.length) ∧
      Stamped (app.view.ledger (app.execs.allocs news)) (app.newAddresses news.length) app'.ledger := by
  obtain ⟨entered, stamped⟩ := entered_enter (app.view.ledger (app.execs.allocs news))
    (app.nodup_newAddresses news.length) (app.present_newAddresses news)
  rw [← ledger] at entered stamped
  exact ⟨⟨.refl _, journaled, entered⟩, stamped⟩

/-! ## Changing orders -/

variable {change : Change} {p : OrderPtr} {e : ExecPtr}

theorem Changed.ledger {v v' : View} (changed : Changed change now p e v v') (execs : Store Exec) :
    v'.ledger execs = (v.ledger execs).push (v.heap.order p).accnt e := by
  obtain ⟨-, h, x, -, view⟩ := changed
  rw [view, View.shrink]
  split
  next => rfl
  next => rfl

theorem Changes.ledger {xs : List (ExecPtr × OrderPtr)} {v v' : View} (changes : Changes change now xs v v')
    (own : ∀ x ∈ xs, (v.heap.order x.2).accnt = a) (execs : Store Exec) :
    v'.ledger execs = (xs.map Prod.fst).foldl (fun l e => l.push a e) (v.ledger execs) := by
  induction changes with
  | nil => rfl
  | cons first _ inductionHypothesis =>
    obtain ⟨ownFirst, own⟩ := List.forall_mem_cons.mp own
    rw [inductionHypothesis fun y member => (first.kept.same y.2).accnt.trans (own y member), first.ledger, ownFirst]
    rfl

/-- The reports of changes are no trades. -/
theorem reportsOf_state (h : Heap) (change : Change) (now id : Int) (ps : List OrderPtr)
    (own : ∀ p ∈ ps, (h.order p).accnt = a) :
    ∀ x ∈ reportsOf h change now id ps, x.accnt = a ∧ x.state ≠ .trade := by
  induction ps generalizing id with
  | nil => simp [reportsOf]
  | cons p ps inductionHypothesis =>
    obtain ⟨ownFirst, own⟩ := List.forall_mem_cons.mp own
    refine List.forall_mem_cons.mpr ⟨?_, inductionHypothesis _ own⟩
    cases change with
    | revise lots => exact ⟨ownFirst, by rintro ⟨⟩⟩
    | cancel => exact ⟨ownFirst, by rintro ⟨⟩⟩

theorem changed_ledger {ps : List OrderPtr} {v : View} (own : ∀ p ∈ ps, (app.order p).accnt = a)
    (history : v.ledger = app.view.ledger) (heap : v.heap = app.heap)
    (changes : Changes change now (pairs app.execs.fresh ps) v app'.view)
    (execs : app'.execs = app.execs.allocs (reportsOf app.heap change now (app.view.maxId m) ps)) :
    app'.ledger = (app.newAddresses (reportsOf app.heap change now (app.view.maxId m) ps).length).foldl Ledger.enter
      (app.view.ledger (app.execs.allocs (reportsOf app.heap change now (app.view.maxId m) ps))) := by
  obtain ⟨news, reports⟩ : ∃ news, news = reportsOf app.heap change now (app.view.maxId m) ps := ⟨_, rfl⟩
  have length : news.length = ps.length := by rw [reports, length_reportsOf]
  rw [← reports] at execs ⊢
  rw [App.ledger, changes.ledger (a := a) _ app'.execs, pairs_fst, history, execs, newAddresses, length]
  · refine (Ledger.foldl_enter_push _ _ fun e member => ?_).symm
    have listed : e ∈ app.newAddresses news.length := by rw [length]; exact member
    have inside := List.mem_map_of_mem (f := (app.view.ledger (app.execs.allocs news)).exec) listed
    rw [map_newAddresses] at inside
    rw [reports] at inside ⊢
    exact reportsOf_state app.heap change now _ ps own _ inside
  · intro x member
    have inside : x.2 ∈ (pairs app.execs.fresh ps).map Prod.snd := List.mem_map_of_mem member
    rw [pairs_snd] at inside
    rw [heap]
    exact own _ inside

theorem consecutive_reportsOf (h : Heap) (change : Change) (now id : Int) (ps : List OrderPtr) :
    Consecutive (id + 1) (reportsOf h change now id ps) := by
  induction ps generalizing id with
  | nil => exact .nil _
  | cons p ps inductionHypothesis =>
    refine .cons ?_ (inductionHypothesis (id + 1))
    cases change with
    | revise lots => rfl
    | cancel => rfl

/-! ## Manual trades -/

variable {trade : Exec} {cpty : Symbol} {result : ExecPtr × Option ExecPtr}

theorem Traded.maxId (traded : Traded app a m trade cpty (.ok result app')) :
    app'.view.maxId = update app.view.maxId m (app.view.maxId m + if cpty.isEmpty then 1 else 2) := by
  cases traded with
  | oneSided alone journal view => rw [view, alone]; rfl
  | twoSided paired journal view => rw [view, paired]; rfl

theorem report_allocs (app : App) (news : List Exec) (e : ExecPtr) :
    (app.view.reports.allocs (news.map Exec.unstamped)).get e = ((app.execs.allocs news).get e).unstamped := by
  rw [← OrdMap.get_map Exec.unstamped _ _ rfl, OrdMap.map_allocs]
  rfl

theorem ledger_view_fileTrade {v : View} {execs : Store Exec} (same : v.report e = (execs.get e).unstamped) :
    (v.fileTrade a m e).ledger execs = (v.ledger execs).file a m e := by
  simp only [View.fileTrade, View.ledger, same]
  rfl

/-- What a manual trade makes and files. -/
theorem Traded.filed (traded : Traded app a m trade cpty (.ok result app')) (accnt : trade.accnt = a)
    (marketId : trade.marketId = m) (state : trade.state = .trade) (named : trade.cpty = cpty)
    (first_id : trade.id = app.view.maxId m + 1) :
    (cpty.isEmpty = true ∧ Filed app app' [trade] [app.execs.fresh] ∧ app'.execs = app.execs.allocs [trade] ∧
      Numbered app app' [trade] m) ∨
    (cpty.isEmpty = false ∧ 2 ≤ app.mq.reserve ∧
      Filed app app' [trade, trade.opposite (app.view.maxId m + 2)] [app.execs.fresh + 1, app.execs.fresh] ∧
      app'.execs = app.execs.allocs [trade, trade.opposite (app.view.maxId m + 2)] ∧
      Numbered app app' [trade, trade.opposite (app.view.maxId m + 2)] m) := by
  have maxId := traded.maxId
  cases traded with
  | @oneSided _ mq alone journal view matches_ execs_ execs =>
    rw [if_pos alone] at maxId
    refine .inl ⟨alone, ⟨.refl _, ?_, ?_⟩, execs, maxId, .cons first_id (.nil _), fun x member _ => ?_⟩
    · rw [show app'.mq = mq from congrArg View.mq view]
      exact .of_createExec journal
    · obtain ⟨l, start⟩ : ∃ l, l = app.view.ledger (app.execs.allocs [trade]) := ⟨_, rfl⟩
      have own : l.exec app.execs.fresh = trade := by rw [start]; exact OrdMap.get_put_self _ _ _
      have entered := (Entered.nil l).file (e := app.execs.fresh) (by rw [own]; exact state)
      rw [own, accnt, marketId] at entered
      have ledger : app'.ledger = l.file a m app.execs.fresh := by
        rw [App.ledger, view, execs, ledger_view_fileTrade, start]
        · rfl
        · exact report_allocs app [trade] _
      rw [ledger, ← start]
      exact entered
    · rw [List.mem_singleton.mp member]
      exact marketId
  | @twoSided _ mq paired journal view matches_ execs_ execs =>
    rw [if_neg (by simp [paired])] at maxId
    obtain ⟨other, opposite⟩ : ∃ other, other = trade.opposite (app.view.maxId m + 2) := ⟨_, rfl⟩
    have second_id : other.id = app.view.maxId m + 1 + 1 := by
      rw [opposite]
      show app.view.maxId m + 2 = _
      omega
    rw [← opposite] at journal view execs ⊢
    have room : 2 ≤ app.mq.reserve := not_lt.mp fun short => by
      rw [MsgQueue.createExecs_eq_none.mpr (by exact short)] at journal
      cases journal
    refine .inr ⟨paired, room, ⟨.swap _ _ _, ?_, ?_⟩, execs, maxId, .cons first_id (.cons second_id (.nil _)),
      fun x member _ => ?_⟩
    · rw [show app'.mq = mq from congrArg View.mq view]
      exact .of_createExecs journal
    · obtain ⟨l, start⟩ : ∃ l, l = app.view.ledger (app.execs.allocs [trade, other]) := ⟨_, rfl⟩
      have read := map_newAddresses app [trade, other]
      rw [← start] at read
      obtain ⟨first, second⟩ : l.exec app.execs.fresh = trade ∧ l.exec (app.execs.fresh + 1) = other := by
        simpa [newAddresses, List.range_succ] using read
      have entered := ((Entered.nil l).file (e := app.execs.fresh + 1) (by rw [second, opposite]; exact state)).file
        (e := app.execs.fresh) (by rw [first]; exact state)
      have owner : other.accnt = cpty ∧ other.marketId = m := by rw [opposite]; exact ⟨named, marketId⟩
      rw [first, second, accnt, marketId, owner.1, owner.2] at entered
      have ledger : app'.ledger = (l.file cpty m (app.execs.fresh + 1)).file a m app.execs.fresh := by
        rw [App.ledger, view, execs, ledger_view_fileTrade (by exact report_allocs app [trade, other] _),
          ledger_view_fileTrade (by exact report_allocs app [trade, other] _), start]
        rfl
      rw [ledger, ← start]
      exact entered
    · cases List.mem_pair.mp member with
      | inl first => rw [first]; exact marketId
      | inr second => rw [second, opposite]; exact marketId

/-! ## Steps -/

/-- What a step makes and files, if anything. -/
inductive Filing (app : App) : Op → App → Prop
  | idle {op : Op} {app' : App} (idle : app.Idle app') : Filing app op app'
  | created {a : Symbol} {m : Int} {ref : Bytes} {side : Side} {lots ticks minLots now busDay : Int} {o : Order} {news : List Exec}
      {app' : App} (incoming : o = app.incoming a m ref side lots ticks minLots now)
      (made : news = newReports app o now (app.incomingFills m o))
      (filed : Filed app app' news (app.newAddresses news.length))
      (stamped : Stamped (app.view.ledger (app.execs.allocs news)) (app.newAddresses news.length) app'.ledger)
      (numbered : Numbered app app' news m) : Filing app (.createOrder a m ref side lots ticks minLots now busDay) app'
  | changed {a : Symbol} {m : Int} {change : Change} {target : Target} {now : Int} {ps : List OrderPtr} {news : List Exec}
      {app' : App} (own : ∀ p ∈ ps, (app.order p).accnt = a)
      (made : news = reportsOf app.heap change now (app.view.maxId m) ps)
      (filed : Filed app app' news (app.newAddresses news.length))
      (stamped : Stamped (app.view.ledger (app.execs.allocs news)) (app.newAddresses news.length) app'.ledger)
      (numbered : Numbered app app' news m) : Filing app (.changeOrder a m change target now) app'
  | oneSided {a : Symbol} {m : Int} {ref : Bytes} {side : Side} {lots ticks : Int} {liqInd : LiqInd} {cpty : Symbol}
      {created : Int} {trade : Exec} {app' : App} (made : trade = app.manualTrade a m ref side lots ticks liqInd cpty created)
      (alone : cpty.isEmpty = true) (filed : Filed app app' [trade] [app.execs.fresh])
      (execs : app'.execs = app.execs.allocs [trade]) (numbered : Numbered app app' [trade] m) :
      Filing app (.createTrade a m ref side lots ticks liqInd cpty created) app'
  | twoSided {a : Symbol} {m : Int} {ref : Bytes} {side : Side} {lots ticks : Int} {liqInd : LiqInd} {cpty : Symbol}
      {created : Int} {trade other : Exec} {app' : App}
      (made : trade = app.manualTrade a m ref side lots ticks liqInd cpty created)
      (opposite : other = trade.opposite (app.view.maxId m + 2)) (paired : cpty.isEmpty = false) (room : 2 ≤ app.mq.reserve)
      (filed : Filed app app' [trade, other] [app.execs.fresh + 1, app.execs.fresh])
      (execs : app'.execs = app.execs.allocs [trade, other]) (numbered : Numbered app app' [trade, other] m) :
      Filing app (.createTrade a m ref side lots ticks liqInd cpty created) app'

/-- A new order and its matches. -/
theorem created_filed (inv : app.Inv) {o : Order} {s : Side} {v : View} (new : New app a m o) (state : o.state = .new)
    (opened : Opened app a m o now (app.incomingFills m o) v)
    (commits : Commits a m s now ((app.incomingFills m o).map fun f => f.toMatch app.heap m) v app'.view)
    (ledger : app'.ledger = createdLedger app a m o now (app.incomingFills m o)) :
    Filed app app' (newReports app o now (app.incomingFills m o))
        (app.newAddresses (newReports app o now (app.incomingFills m o)).length) ∧
      Stamped (app.view.ledger (app.execs.allocs (newReports app o now (app.incomingFills m o))))
        (app.newAddresses (newReports app o now (app.incomingFills m o)).length) app'.ledger ∧
      Numbered app app' (newReports app o now (app.incomingFills m o)) m := by
  have mq : app'.mq = v.mq := commits.mq
  obtain ⟨filed, stamped⟩ := Filed.of_enter (by rw [mq]; exact .of_createExecs opened.journal)
    (ledger.trans (created_ledger inv new state))
  exact ⟨filed, stamped, created_numbered inv new state (by rw [commits.maxId, opened.view])⟩

/-- A change of orders. -/
theorem changed_filed {ps : List OrderPtr} {mq : MsgQueue} (held : ∀ p ∈ ps, (app.order p).accnt = a)
    (journaled : app.mq.Journaled (reportsOf app.heap change now (app.view.maxId m) ps) mq)
    (changes : Changes change now (pairs app.execs.fresh ps) { app.view with
      mq
      maxId := update app.view.maxId m (app.view.maxId m + ps.length)
      reports := app.view.reports.allocs (reportsOf app.heap change now (app.view.maxId m) ps) } app'.view)
    (execs : app'.execs = app.execs.allocs (reportsOf app.heap change now (app.view.maxId m) ps)) :
    Filed app app' (reportsOf app.heap change now (app.view.maxId m) ps)
        (app.newAddresses (reportsOf app.heap change now (app.view.maxId m) ps).length) ∧
      Stamped (app.view.ledger (app.execs.allocs (reportsOf app.heap change now (app.view.maxId m) ps)))
        (app.newAddresses (reportsOf app.heap change now (app.view.maxId m) ps).length) app'.ledger ∧
      Numbered app app' (reportsOf app.heap change now (app.view.maxId m) ps) m := by
  have mq' : app'.mq = mq := changes.mq
  obtain ⟨filed, stamped⟩ := Filed.of_enter (by rw [mq']; exact journaled)
    (changed_ledger (v := { app.view with
      mq
      maxId := update app.view.maxId m (app.view.maxId m + ps.length)
      reports := app.view.reports.allocs (reportsOf app.heap change now (app.view.maxId m) ps) }) held rfl rfl changes execs)
  exact
    ⟨filed, stamped,
      { maxId := by rw [changes.maxId, length_reportsOf]
        ids := consecutive_reportsOf _ _ _ _ _
        market := fun x member trade => absurd trade (reportsOf_state app.heap change now _ ps held x member).2 }⟩

/-- How `revise_order` and `cancel_order` succeed. -/
structure ChangeDone (app : App) (a : Symbol) (m : Int) (change : Change) (ps : List OrderPtr) (now : Int)
    (resp : Response) (mq : MsgQueue) (app' : App) : Prop where
  held : ∀ p ∈ ps, app.Held a p ∧ change.check (app.order p) = none
  journaled : app.mq.Journaled (reportsOf app.heap change now (app.view.maxId m) ps) mq
  changes : Changes change now (pairs app.execs.fresh ps) { app.view with
    mq
    maxId := update app.view.maxId m (app.view.maxId m + ps.length)
    reports := app.view.reports.allocs (reportsOf app.heap change now (app.view.maxId m) ps) } app'.view
  execs : app'.execs = app.execs.allocs (reportsOf app.heap change now (app.view.maxId m) ps)
  response : resp = { Response.empty.setMarket m with orders := ps, execs := app.newAddresses ps.length }

theorem Ended.done {resp : Response} (held : app.Held a p) (ended : Ended app m change p now (.ok resp app')) :
    ∃ mq, app.ChangeDone a m change [p] now resp mq app' := by
  cases ended with
  | @committed _ _ mq checked journal changed matches_ execs_ execs response =>
    refine ⟨mq, fun q member => ?_, .of_createExec journal, .cons changed .nil, execs, response⟩
    rw [List.mem_singleton.mp member]
    exact ⟨held, checked⟩

theorem BulkEnded.done {ids : List Int} {resp : Response} (inv : app.Inv)
    (ended : BulkEnded app a m change ids now (.ok resp app')) : ∃ ps mq, app.ChangeDone a m change ps now resp mq app' ∧
      List.Forall₂ (Accepts app a m change) ids ps := by
  cases ended with
  | @committed _ _ ps mq accepted journal repeats changes matches_ execs_ execs response =>
    refine ⟨ps, mq, ⟨fun p member => ?_, .of_createExecs journal, changes, execs, response⟩, accepted⟩
    obtain ⟨i, small, rfl⟩ := List.mem_iff_getElem.mp member
    have accepts := accepted.get (by rw [accepted.length_eq]; exact small) small
    obtain ⟨accnt, -, listed⟩ := inv.live.booked a _ _ accepts.found
    exact ⟨⟨accnt, listed⟩, accepts.checked⟩

/-- The orders that a call names. -/
def Names (app : App) (a : Symbol) (m : Int) (change : Change) : Target → List OrderPtr → Prop
  | .id id, ps => ∃ p, ps = [p] ∧ (app.view.orders a).find (idKey m id) = some p
  | .ref ref, ps => ∃ p, ps = [p] ∧ (app.view.refs a).find ref = some p
  | .ids ids, ps => List.Forall₂ (Accepts app a m change) ids ps

theorem changeTarget_done {target : Target} {resp : Response} (inv : app.Inv)
    (done : app.changeTarget a m change now target = .ok resp app') :
    ∃ ps mq, app.ChangeDone a m change ps now resp mq app' ∧ app.Names a m change target ps := by
  cases target with
  | id id =>
    simp only [changeTarget, changeById] at done
    cases found : (app.sess a).orders.find (idKey m id) with
    | none =>
      rw [found] at done
      cases done
    | some p =>
      rw [found] at done
      obtain ⟨accnt, -, listed⟩ := inv.live.booked a _ p found
      have ended := changeOrder_spec inv ⟨accnt, listed⟩ m change now
      rw [show app.changeOrder a m change p now = _ from done] at ended
      obtain ⟨mq, changed⟩ := ended.done ⟨accnt, listed⟩
      exact ⟨[p], mq, changed, p, rfl, found⟩
  | ref ref =>
    simp only [changeTarget, changeByRef] at done
    cases found : (app.sess a).refIdx.find ref with
    | none =>
      rw [found] at done
      cases done
    | some p =>
      rw [found] at done
      obtain ⟨-, -, accnt, listed⟩ := inv.live.refs a _ p found
      have ended := changeOrder_spec inv ⟨accnt, listed⟩ m change now
      rw [show app.changeOrder a m change p now = _ from done] at ended
      obtain ⟨mq, changed⟩ := ended.done ⟨accnt, listed⟩
      exact ⟨[p], mq, changed, p, rfl, found⟩
  | ids ids =>
    have ended := changeByIds_spec inv a m change ids now
    rw [show app.changeByIds a m change ids now = _ from done] at ended
    exact ended.done inv

theorem find_foldl_erase {k : IdKey} {e : ExecPtr} (ids : List Int) (trades : OrdMap IdKey ExecPtr)
    (found : (ids.foldl (fun trades id => trades.erase (idKey m id)) trades).find k = some e) : trades.find k = some e := by
  induction ids generalizing trades with
  | nil => exact found
  | cons id ids inductionHypothesis =>
    have kept := inductionHypothesis _ found
    rw [OrdMap.find_erase] at kept
    split at kept
    next => cases kept
    next => exact kept

/-- Ids that are given out and not used. -/
theorem Idle.of_ids {given : Int → Int} (grown : ∀ m, app.view.maxId m ≤ given m)
    (view : app'.view = { app.view with maxId := given }) (execs : app'.execs = app.execs) : app.Idle app' where
  execs := execs
  silent := by rw [show app'.mq = app.mq from congrArg View.mq view]; exact .refl _
  history := by rw [view]
  trades := by rw [view]; exact fun _ _ _ => id
  posn := by rw [view]
  grown := by rw [view]; exact grown

/-- A message that is no report. -/
theorem Idle.of_posted {mq : MsgQueue} {terms : Int → Symbol × Int × Nat} (view : app'.view = { app.view with mq, terms })
    (execs : app'.execs = app.execs) (silent : app.mq.Silent mq) : app.Idle app' where
  execs := execs
  silent := by rw [show app'.mq = mq from congrArg View.mq view]; exact silent
  history := by rw [view]
  trades := by rw [view]; exact fun _ _ _ => id
  posn := by rw [view]
  grown := by rw [view]; exact fun _ => le_rfl

theorem Idle.of_archived {ids : List Int} {mq : MsgQueue} (view : app'.view = archive { app.view with mq } a m ids)
    (execs : app'.execs = app.execs) (silent : app.mq.Silent mq) : app.Idle app' where
  execs := execs
  silent := by rw [show app'.mq = mq from congrArg View.mq view]; exact silent
  history := by rw [view]; rfl
  trades := fun b k e found => by
    rw [view, archive] at found
    simp only [update_apply] at found
    split at found
    next here =>
      rw [here]
      exact find_foldl_erase ids _ found
    next => exact found
  posn := by rw [view]; rfl
  grown := by rw [view]; exact fun _ => le_rfl

theorem Effect.filing (inv : app.Inv) (effect : Effect app op app') : Filing app op app' := by
  cases effect with
  | idle grown view execs => exact .idle (.of_ids grown view execs)
  | posted view archived execs silent => exact .idle (.of_posted view execs silent)
  | archived view archived owner execs silent => exact .idle (.of_archived view execs silent)
  | created checked opened commits ledger =>
    obtain ⟨filed, stamped, numbered⟩ := created_filed inv incoming_new rfl opened commits ledger
    exact .created rfl rfl filed stamped numbered
  | changed held journaled changes execs =>
    obtain ⟨filed, stamped, numbered⟩ := changed_filed (fun p member => (held p member).1.accnt) journaled changes execs
    exact .changed (fun p member => (held p member).1.accnt) rfl filed stamped numbered
  | traded traded =>
    cases traded.filed rfl rfl rfl rfl rfl with
    | inl alone =>
      obtain ⟨alone, filed, execs, numbered⟩ := alone
      exact .oneSided rfl alone filed execs numbered
    | inr paired =>
      obtain ⟨paired, room, filed, execs, numbered⟩ := paired
      exact .twoSided rfl rfl paired room filed execs numbered

section Ensured

variable {app₀ : App}

theorem terms_view (view : app₀.view = app.view) (m : Int) :
    (app₀.market m).instr = (app.market m).instr ∧ (app₀.market m).settlDay = (app.market m).settlDay := by
  have terms := congrFun (congrArg View.terms view) m
  exact ⟨congrArg Prod.fst terms, congrArg (fun t : Symbol × Int × Nat => t.2.1) terms⟩

theorem incoming_view (view : app₀.view = app.view) {ref : Bytes} {side : Side} {lots ticks minLots : Int} :
    app₀.incoming a m ref side lots ticks minLots now = app.incoming a m ref side lots ticks minLots now := by
  have maxId : (app₀.market m).maxId = (app.market m).maxId := congrFun (congrArg View.maxId view) m
  rw [incoming, (terms_view view m).1, (terms_view view m).2, maxId]
  rfl

theorem incomingFills_view (view : app₀.view = app.view) (execs : app₀.execs = app.execs) (m : Int) (o : Order) :
    app₀.incomingFills m o = app.incomingFills m o := by
  have heap : app₀.heap = app.heap := congrArg View.heap view
  rw [incomingFills, makers, heap, view, execs]
  rfl

theorem newReports_view (view : app₀.view = app.view) (execs : app₀.execs = app.execs) {o : Order} :
    newReports app₀ o now (app₀.incomingFills m o) = newReports app o now (app.incomingFills m o) := by
  have heap : app₀.heap = app.heap := congrArg View.heap view
  rw [newReports, incomingFills_view view execs, heap]
  rfl

/-- The trade only depends on the view. -/
theorem manualTrade_view (view : app₀.view = app.view) {ref : Bytes} {side : Side} {lots ticks : Int}
    {liqInd : LiqInd} {created : Int} :
    app₀.manualTrade a m ref side lots ticks liqInd cpty created =
      app.manualTrade a m ref side lots ticks liqInd cpty created := by
  rw [manualTrade, (terms_view view m).1, (terms_view view m).2, view]
  rfl

end Ensured

/-- Sessions that a call makes first do not matter here. -/
theorem Filed.of_view {app₀ : App} {news : List Exec} {es : List ExecPtr} (view : app₀.view = app.view)
    (execs : app₀.execs = app.execs) (filed : Filed app₀ app' news es) : Filed app app' news es where
  addresses := by
    have addresses := filed.addresses
    rw [newAddresses, execs] at addresses
    exact addresses
  journaled := by
    rw [← show app₀.mq = app.mq from congrArg View.mq view]
    exact filed.journaled
  entered := by
    rw [← view, ← execs]
    exact filed.entered

theorem Idle.of_view {app₀ : App} (view : app₀.view = app.view) (execs : app₀.execs = app.execs) (idle : Idle app₀ app') :
    Idle app app' where
  execs := idle.execs.trans execs
  silent := by
    rw [← show app₀.mq = app.mq from congrArg View.mq view]
    exact idle.silent
  history := by rw [← view]; exact idle.history
  trades := by rw [← view]; exact idle.trades
  posn := by rw [← view]; exact idle.posn
  grown := by rw [← view]; exact idle.grown

theorem Filing.of_view {app₀ : App} (view : app₀.view = app.view) (execs : app₀.execs = app.execs)
    (filing : Filing app₀ op app') : Filing app op app' := by
  have mq : app₀.mq = app.mq := congrArg View.mq view
  have addresses : ∀ n, app₀.newAddresses n = app.newAddresses n := fun n => by rw [newAddresses, execs]; rfl
  have filed : ∀ {news es}, Filed app₀ app' news es → Filed app app' news es := Filed.of_view view execs
  have numbered : ∀ {news m}, Numbered app₀ app' news m → Numbered app app' news m := fun {news m} numbered => by
    obtain ⟨maxId, ids, market⟩ := numbered
    rw [view] at maxId ids
    exact ⟨maxId, ids, market⟩
  cases filing with
  | idle idle => exact .idle (idle.of_view view execs)
  | created incoming made new stamped ids =>
    rw [incoming_view view] at incoming
    rw [newReports_view view execs] at made
    rw [addresses] at new stamped
    rw [view, execs] at stamped
    exact .created incoming made (filed new) stamped (numbered ids)
  | changed own made new stamped ids =>
    have heap : app₀.heap = app.heap := congrArg View.heap view
    rw [heap, view] at made
    rw [addresses] at new stamped
    rw [view, execs] at stamped
    exact .changed (fun p member => by rw [App.order, ← heap]; exact own p member) made (filed new) stamped (numbered ids)
  | oneSided made alone trade stored ids =>
    rw [execs] at trade stored
    exact .oneSided (made.trans (manualTrade_view view)) alone (filed trade) stored (numbered ids)
  | twoSided made opposite paired room trade stored ids =>
    rw [view] at opposite
    rw [execs] at trade stored
    exact .twoSided (made.trans (manualTrade_view view)) opposite paired (mq ▸ room) (filed trade) stored (numbered ids)

theorem step_filing (inv : app.Inv) (stepped : app.step op = some app') : Filing app op app' := by
  obtain ⟨app₀, view, execs, inv₀, effect, -⟩ := step_effect inv stepped
  exact (effect.filing inv₀).of_view view execs

end App

end Swirly
