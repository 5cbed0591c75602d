import Swirly.Lib.Chronicle
import Swirly.Verified.App.Filing
import Swirly.Verified.Posting
import Swirly.Verified.Sequence

/-!
# The last trade of a market

The commit loop sets the last trade of a market when it takes an order; the trigger sets the columns for every trade that
is inserted.  A trade that is entered by hand is inserted but takes no order, and the columns hold milliseconds, and no
lots that are not positive.
-/

namespace Swirly

open Function

/-- Lots, ticks and time of the last trade. -/
def Market.last (market : Market) : Int × Int × Int := (market.lastLots, market.lastTicks, market.lastTime)

/-- What is read back of the columns. -/
def MarketRow.last (row : MarketRow) : Int × Int × Int :=
  (row.lastLots.getD 0, row.lastTicks.getD 0, toTime (row.lastTime.getD 0))

theorem last_market (db : Db) (n : Int) (row : MarketRow) : (db.market n row).last = row.last := rfl

/-- What is read back of a trade, once the trigger has copied it. -/
def CreateExec.last (body : CreateExec) : Int × Int × Int :=
  ((SqliteJourn.execRow body).lastLots.getD 0, (SqliteJourn.execRow body).lastTicks.getD 0, toTime body.created)

/-- A trade in the market `n`. -/
def Msg.tradeOf (n : Int) : Msg → Option CreateExec
  | .createExec body => if body.state = .trade ∧ body.marketId = n then some body else none
  | _ => none

/-- The last trade in the market that the messages tell of. -/
def lastTrade (n : Int) (msgs : List Msg) : Int × Int × Int :=
  ((msgs.filterMap (Msg.tradeOf n)).getLast?.map CreateExec.last).getD (0, 0, 0)

/-- The messages create the market. -/
def Opens (n : Int) (msgs : List Msg) : Prop := ∃ instr settlDay state, Msg.createMarket n instr settlDay state ∈ msgs

/-- No trade in the market comes before the market. -/
def Founded (n : Int) (msgs : List Msg) : Prop := Chronicle (fun before msg => (msg.tradeOf n).isSome → Opens n before) msgs

section Messages

variable {n : Int} {msgs more : List Msg} {msg : Msg} {x : Exec}

theorem tradeOf_none (other : ¬ (x.state = .trade ∧ x.marketId = n)) :
    (Msg.createExec (MsgQueue.execBody x)).tradeOf n = none := if_neg other

theorem lastTrade_skip (msgs : List Msg) (others : ∀ msg ∈ more, msg.tradeOf n = none) :
    lastTrade n (msgs ++ more) = lastTrade n msgs := by
  have nothing : more.filterMap (Msg.tradeOf n) = [] := List.filterMap_eq_nil_iff.mpr others
  simp [lastTrade, nothing]

theorem lastTrade_snoc {body : CreateExec} (msgs : List Msg) (trade : msg.tradeOf n = some body) :
    lastTrade n (msgs ++ [msg]) = body.last := by
  simp [lastTrade, trade]

theorem Opens.append_left (opens : Opens n msgs) (more : List Msg) : Opens n (msgs ++ more) := by
  obtain ⟨instr, settlDay, state, member⟩ := opens
  exact ⟨instr, settlDay, state, List.mem_append_left _ member⟩

/-- The trades that follow need the market. -/
theorem Founded.append (founded : Founded n msgs) (opens : (∃ msg ∈ more, (msg.tradeOf n).isSome) → Opens n msgs) :
    Founded n (msgs ++ more) :=
  Chronicle.append founded fun before msg after split trade =>
    (opens ⟨msg, by simp [split], trade⟩).append_left before

theorem Founded.initial (founded : Founded n (msgs ++ more)) : Founded n msgs := Chronicle.initial founded

/-- There is no trade in a market that has not been created. -/
theorem Founded.unopened (founded : Founded n msgs) (unopened : ¬ Opens n msgs) : ∀ msg ∈ msgs, msg.tradeOf n = none := by
  intro msg member
  obtain ⟨before, after, rfl, opens⟩ := Chronicle.of_mem founded member
  cases trade : msg.tradeOf n with
  | none => rfl
  | some body => exact absurd ((opens (by rw [trade]; rfl)).append_left _) unopened

end Messages

/-! ## The columns -/

section Columns

variable {db db' : Db} {new : ExecRow} {n : Int} {msgs : List Msg} {msg : Msg}

/-- The columns that the trigger leaves. -/
theorem find_beforeInsertOnExec1 (db : Db) (new : ExecRow) (n : Int) :
    (db.beforeInsertOnExec1 new).markets.find n = if new.state = .trade ∧ new.marketId = n then
      (db.markets.find n).map fun row =>
        { row with lastLots := new.lastLots, lastTicks := new.lastTicks, lastTime := some new.created }
    else db.markets.find n := by
  rw [Db.beforeInsertOnExec1]
  by_cases trade : new.state = .trade
  · rw [if_pos trade]
    cases found : db.markets.find new.marketId with
    | none =>
      by_cases here : new.marketId = n
      · rw [if_pos ⟨trade, here⟩, ← here, found]
        rfl
      · rw [if_neg fun both => here both.2]
    | some row =>
      rw [OrdMap.find_put]
      by_cases here : new.marketId = n
      · rw [if_pos here.symm, if_pos ⟨trade, here⟩, ← here, found]
        rfl
      · rw [if_neg (Ne.symm here), if_neg fun both => here both.2]
  · rw [if_neg trade, if_neg fun both => trade both.1]

/-- The row of the market shows its last trade. -/
structure Columns (n : Int) (msgs : List Msg) (db : Db) : Prop where
  last : ∀ row, db.markets.find n = some row → row.last = lastTrade n msgs
  opened : Opens n msgs → (db.markets.find n).isSome

/-- A message that leaves the row as it is. -/
theorem Columns.congr (columns : Columns n msgs db) (same : (db'.markets.find n).map MarketRow.last = (db.markets.find n).map MarketRow.last)
    (other : msg.tradeOf n = none) (closed : ¬ Opens n [msg]) : Columns n (msgs ++ [msg]) db' where
  last row found := by
    rw [lastTrade_skip msgs (by simpa using other)]
    rw [found] at same
    cases before : db.markets.find n with
    | none => rw [before] at same; cases same
    | some old =>
      rw [before] at same
      exact (Option.some.inj same).trans (columns.last old before)
  opened opens := by
    obtain ⟨instr, settlDay, state, member⟩ := opens
    have present := congrArg Option.isSome same
    rw [Option.isSome_map, Option.isSome_map] at present
    rw [present]
    apply columns.opened
    refine ⟨instr, settlDay, state, (List.mem_append.mp member).resolve_right fun last => ?_⟩
    exact closed ⟨instr, settlDay, state, last⟩

theorem Columns.write (columns : Columns n msgs db) (founded : Founded n (msgs ++ [msg]))
    (written : SqliteJourn.write db msg = some db') : Columns n (msgs ++ [msg]) db' := by
  cases msg with
  | createMarket id instr settlDay state =>
    simp only [SqliteJourn.write, SqliteJourn.createMarket] at written
    split at written
    next => cases written
    next absent =>
      cases written
      have absent : db.markets.find id = none := by simpa using absent
      by_cases here : n = id
      · subst here
        have unopened : ¬ Opens n msgs := fun opens => by
          have present := columns.opened opens
          rw [absent] at present
          cases present
        refine ⟨fun row found => ?_, fun _ => ?_⟩
        · rw [OrdMap.find_put, if_pos rfl] at found
          cases found
          rw [lastTrade_skip msgs (by simp [Msg.tradeOf]), ← List.nil_append msgs,
            lastTrade_skip [] (founded.initial.unopened unopened)]
          rfl
        · rw [OrdMap.find_put, if_pos rfl]
          rfl
      · refine columns.congr ?_ rfl fun opens => ?_
        · rw [OrdMap.find_put, if_neg here]
        · obtain ⟨_, _, _, member⟩ := opens
          simp at member
          exact here member.1
  | updateMarket id state =>
    refine columns.congr ?_ rfl fun opens => ?_
    · simp only [SqliteJourn.write, SqliteJourn.updateMarket] at written
      split at written
      next => cases written; rfl
      next row found =>
        cases written
        rw [OrdMap.find_put]
        split
        next here => rw [here, found]; rfl
        next => rfl
    · obtain ⟨_, _, _, member⟩ := opens
      simp at member
  | createExec body =>
    have closed : ¬ Opens n [.createExec body] := fun opens => by
      obtain ⟨_, _, _, member⟩ := opens
      simp at member
    have row := find_beforeInsertOnExec1 db (SqliteJourn.execRow body) n
    rw [← Db.insertExec_markets (show db.insertExec (SqliteJourn.execRow body) = some db' from written)] at row
    by_cases trade : body.state = .trade ∧ body.marketId = n
    · rw [if_pos (show (SqliteJourn.execRow body).state = .trade ∧ (SqliteJourn.execRow body).marketId = n from trade)] at row
      refine ⟨fun after found => ?_, fun opens => ?_⟩
      · rw [lastTrade_snoc msgs (show (Msg.createExec body).tradeOf n = some body from if_pos trade)]
        rw [row] at found
        obtain ⟨before, -, rfl⟩ := Option.map_eq_some_iff.mp found
        rfl
      · have opens : Opens n msgs := Chronicle.last founded (by rw [show (Msg.createExec body).tradeOf n = some body from if_pos trade]; rfl)
        rw [row, Option.isSome_map]
        exact columns.opened opens
    · rw [if_neg (show ¬ ((SqliteJourn.execRow body).state = .trade ∧ (SqliteJourn.execRow body).marketId = n) from trade)] at row
      exact columns.congr (by rw [row]) (if_neg trade) closed
  | archiveTrade m ids modified =>
    cases written
    refine columns.congr (by rw [SqliteJourn.markets_archiveTrade]) rfl fun opens => ?_
    obtain ⟨_, _, _, member⟩ := opens
    simp at member

/-- The columns after all messages. -/
theorem Columns.run {Allowed : Db → Msg → Prop} (founded : Founded n msgs) (run : Run SqliteJourn.write Allowed Db.empty msgs db) :
    Columns n msgs db := by
  refine run.invariant_history (I := fun msgs db => Founded n msgs → Columns n msgs db)
    (fun msgs db msg db' columns _ written founded => (columns founded.initial).write founded written) (fun _ => ?_) founded
  exact
    { last := fun row found => by cases found
      opened := fun opens => by
        obtain ⟨_, _, _, member⟩ := opens
        cases member }

end Columns

/-! ## The live market -/

section Commit

variable {a : Symbol} {m n now : Int} {s : Side} {xs : List Match} {x : Match} {v v' : View}

theorem View.last_shrink {p : OrderPtr} {h : Heap} {side : MarketSide} : (v.shrink m s p h side).last = v.last := by
  unfold View.shrink
  split <;> rfl

theorem Committed.last (committed : Committed a m s now x v v') :
    v'.last = update v.last m (x.lots, (v.heap.order x.makerOrder).ticks, now) := by
  obtain ⟨-, h, side, -, rfl⟩ := committed
  simp only [View.last_fileTrade, View.setLast, View.last_shrink]

theorem Commits.last_ne (commits : Commits a m s now xs v v') (differ : n ≠ m) : v'.last n = v.last n := by
  induction commits with
  | nil => rfl
  | cons first _ inductionHypothesis => rw [inductionHypothesis, first.last, update_of_ne differ]

/-- The last match is the one that stays. -/
theorem Commits.last_snoc (commits : Commits a m s now (xs ++ [x]) v v') :
    v'.last m = (x.lots, (v.heap.order x.makerOrder).ticks, now) := by
  generalize split : xs ++ [x] = all at commits
  induction commits generalizing xs with
  | nil => simp at split
  | @cons y ys v v₁ _ first rest inductionHypothesis =>
    cases xs with
    | nil =>
      obtain ⟨rfl, rfl⟩ : x = y ∧ ys = [] := by simpa using split
      cases rest
      rw [first.last, update_self]
    | cons z zs =>
      obtain ⟨-, rest⟩ : z = y ∧ zs ++ [x] = ys := by simpa using split
      rw [inductionHypothesis rest, (first.kept.same x.makerOrder).ticks]

variable {change : App.Change} {ps : List (ExecPtr × OrderPtr)}

theorem App.Changes.last (changes : App.Changes change now ps v v') : v'.last = v.last := by
  induction changes with
  | nil => rfl
  | cons first _ inductionHypothesis =>
    obtain ⟨-, h, side, -, rfl⟩ := first
    exact inductionHypothesis.trans View.last_shrink

end Commit

/-- The operation may trade in the market. -/
def Op.TradesIn (n : Int) : Op → Prop
  | .createOrder _ m .. => m = n
  | .createTrade _ m .. => m = n
  | _ => False

/-- What the operation trades in the market is read back as it is: an order is matched on a whole millisecond and for
positive lots, and a trade by hand repeats the last one. -/
def Op.SameLast (n : Int) (app : App) : Op → Prop
  | .createOrder a m ref side lots ticks minLots now busDay =>
    m = n → app.admission a m ref lots minLots busDay = none →
      ∀ p ∈ app.makers m (app.incoming a m ref side lots ticks minLots now),
        App.spread (app.incoming a m ref side lots ticks minLots now) (app.heap.order p)
            (App.direct (app.incoming a m ref side lots ticks minLots now)) ≤ 0 →
          now % 1000000 = 0 ∧ 0 < lots ∧ 0 < (app.heap.order p).resdLots
  | .createTrade a m ref side lots ticks liqInd cpty created =>
    m = n → (if cpty.isEmpty then 1 else 2) ≤ app.mq.reserve →
      (MsgQueue.execBody (app.manualTrade a m ref side lots ticks liqInd cpty created)).last = app.view.last n
  | _ => True

instance (n : Int) (app : App) (op : Op) : Decidable (op.SameLast n app) :=
  match op with
  | .createOrder _ m .. => inferInstanceAs (Decidable (m = n → _))
  | .createTrade _ m .. => inferInstanceAs (Decidable (m = n → _))
  | .sess .. | .createMarket .. | .updateMarket .. | .changeOrder .. | .archiveExec .. | .archiveTrade ..
  | .archiveTrades .. | .pop => .isTrue trivial

namespace App

variable {app app' app₀ : App} {op : Op} {n m now : Int} {o : Order} {a : Symbol}

theorem last_view (app : App) (n : Int) : app.view.last n = (app.market n).last := rfl

theorem toTime_msSinceEpoch (whole : now % 1000000 = 0) : toTime (msSinceEpoch now) = now := by
  simp only [toTime, msSinceEpoch]
  exact Int.tdiv_mul_cancel (Int.dvd_of_emod_eq_zero whole)

/-- What is read back of the taker's trade. -/
theorem last_takerExec {h : Heap} {f : Fill} (positive : 0 < f.lots) (whole : now % 1000000 = 0) :
    (MsgQueue.execBody (f.takerExec h o now)).last = (f.lots, (h.order f.maker).ticks, now) := by
  have lots : (SqliteJourn.execRow (MsgQueue.execBody (f.takerExec h o now))).lastLots = some f.lots := if_pos positive
  have ticks : (SqliteJourn.execRow (MsgQueue.execBody (f.takerExec h o now))).lastTicks = some (h.order f.maker).ticks :=
    if_pos positive
  rw [CreateExec.last, lots, ticks]
  show (f.lots, (h.order f.maker).ticks, toTime (msSinceEpoch now)) = _
  rw [toTime_msSinceEpoch whole]

/-- The live market shows its last trade, as far as the journal tells. -/
def Tracks (n : Int) (app : App) : Prop := app.view.last n = lastTrade n app.mq.posted

/-- What a step adds to the journal, and to the last trade. -/
structure Extends (n : Int) (app : App) (op : Op) (app' : App) : Prop where
  posted : ∃ msgs, app'.mq.posted = app.mq.posted ++ msgs ∧ ((∃ msg ∈ msgs, (msg.tradeOf n).isSome) → op.TradesIn n)
  tracks : app.Tracks n → app'.Tracks n

/-- A step that does not trade in the market. -/
theorem Extends.quiet {msgs : List Msg} (posted : app'.mq.posted = app.mq.posted ++ msgs)
    (others : ∀ msg ∈ msgs, msg.tradeOf n = none) (last : app'.view.last n = app.view.last n) : Extends n app op app' where
  posted := by
    refine ⟨msgs, posted, fun traded => ?_⟩
    obtain ⟨msg, member, trade⟩ := traded
    rw [others msg member] at trade
    cases trade
  tracks tracks := by
    rw [Tracks, last, posted, lastTrade_skip _ others]
    exact tracks

theorem Extends.silent (silent : app.mq.Silent app'.mq) (last : app'.view.last n = app.view.last n) : Extends n app op app' := by
  obtain ⟨msgs, posted, silent⟩ := silent
  refine .quiet posted (fun msg member => ?_) last
  cases msg with
  | createExec body => exact absurd member (silent body)
  | createMarket | updateMarket | archiveTrade => rfl

/-- The last of the messages trades in the market. -/
theorem Extends.trade {msgs : List Msg} {x : Exec}
    (posted : app'.mq.posted = app.mq.posted ++ (msgs ++ [.createExec (MsgQueue.execBody x)])) (state : x.state = .trade)
    (marketId : x.marketId = n) (last : app'.view.last n = (MsgQueue.execBody x).last) (trades : op.TradesIn n) :
    Extends n app op app' where
  posted := ⟨_, posted, fun _ => trades⟩
  tracks _ := by
    rw [Tracks, last, posted, ← List.append_assoc]
    have told : (Msg.createExec (MsgQueue.execBody x)).tradeOf n = some (MsgQueue.execBody x) := if_pos ⟨state, marketId⟩
    exact (lastTrade_snoc _ told).symm

theorem extends_created {ref : Bytes} {side : Side} {lots ticks minLots busDay : Int} {v : View} (inv : app.Inv)
    (same : (Op.createOrder a m ref side lots ticks minLots now busDay).SameLast n app)
    (checked : app.admission a m ref lots minLots busDay = none)
    (incoming : o = app.incoming a m ref side lots ticks minLots now)
    (opened : Opened app a m o now (app.incomingFills m o) v)
    (commits : Commits a m side.opposite now ((app.incomingFills m o).map fun f => f.toMatch app.heap m) v app'.view) :
    Extends n app (.createOrder a m ref side lots ticks minLots now busDay) app' := by
  have journal : app.mq.Journaled (newReports app o now (app.incomingFills m o)) app'.mq := by
    rw [show app'.mq = v.mq from commits.mq]
    exact .of_createExecs opened.journal
  have posted : app'.mq.posted = app.mq.posted ++ (newReports app o now (app.incomingFills m o)).map
      fun e => .createExec (MsgQueue.execBody e) := congrArg MsgQueue.posted journal
  have before : v.last = app.view.last := by rw [opened.view]
  have new : o.state = .new ∧ o.marketId = m := by rw [incoming]; exact ⟨rfl, rfl⟩
  have quietNew : (Msg.createExec (MsgQueue.execBody (Exec.make o o.id now))).tradeOf n = none :=
    tradeOf_none fun both => absurd (new.1.symm.trans both.1) nofun
  by_cases here : n = m
  · subst here
    cases List.eq_nil_or_concat (app.incomingFills n o) with
    | inl unmatched =>
      rw [unmatched] at posted commits
      refine .quiet posted (by simpa [newReports] using quietNew) ?_
      cases commits
      rw [before]
    | inr matched =>
      obtain ⟨fs, f, split⟩ := matched
      have member : f ∈ app.incomingFills n o := by simp [split]
      obtain ⟨listed, -, crosses⟩ := mem_fillsOf member
      -- Every maker that is crossed has open lots, so each fill has lots.
      have positive : 0 < lots ∧ ∀ x ∈ offers app.heap o (direct o) (app.makers n o), 0 < x.2 := by
        constructor
        · exact (same rfl checked _ (incoming ▸ listed) (incoming ▸ crosses)).2.1
        · intro x inside
          obtain ⟨listed, resdLots, crosses⟩ := mem_offers (show (x.1, x.2) ∈ _ from inside)
          rw [resdLots]
          exact (same rfl checked _ (incoming ▸ listed) (incoming ▸ crosses)).2.2
      have whole := (same rfl checked _ (incoming ▸ listed) (incoming ▸ crosses)).1
      have filled : 0 < f.lots := by
        have inside := List.mem_map_of_mem (f := fun f : Fill => (f.maker, f.lots)) member
        rw [incomingFills, fillsOf_allocations] at inside
        exact Greedy.fill_positive (by rw [incoming]; exact positive.1.le) positive.2 inside
      rw [split] at posted commits
      rw [List.concat_eq_append, List.map_append] at commits
      have differ := OrdMap.ne_fresh (inv.live.present listed)
      have last : app'.mq.posted = app.mq.posted ++ ((newReports app o now fs ++ [f.makerExec app.heap o now]).map
          (fun e => .createExec (MsgQueue.execBody e)) ++ [.createExec (MsgQueue.execBody (f.takerExec app.heap o now))]) := by
        rw [posted]
        simp [newReports, Fill.execs]
      refine .trade last rfl new.2 ?_ rfl
      rw [commits.last_snoc, last_takerExec filled whole]
      show (f.lots, (v.heap.order f.maker).ticks, now) = _
      rw [opened.placed.order_ne differ]
  · refine .quiet posted (List.forall_mem_map.mpr fun x member => ?_) ?_
    · cases List.mem_cons.mp member with
      | inl first => rw [first]; exact quietNew
      | inr later =>
        -- Both trades of a match are in the market of the order.
        obtain ⟨f, inside, made⟩ := List.mem_flatMap.mp later
        refine tradeOf_none fun both => here ?_
        rw [← both.2]
        cases List.mem_pair.mp made with
        | inl maker => rw [maker]; exact (inv.live.home (mem_fillsOf inside).1).1
        | inr taker => rw [taker]; exact new.2
    · rw [commits.last_ne here, before]

theorem Effect.extends (inv : app.Inv) (same : op.SameLast n app) (effect : Effect app op app') : Extends n app op app' := by
  cases effect with
  | idle grown view execs =>
    refine .silent ?_ (by rw [view])
    rw [show app'.mq = app.mq from congrArg View.mq view]
    exact .refl _
  | posted view archived execs silent =>
    refine .silent ?_ (by rw [view])
    rw [show app'.mq = _ from congrArg View.mq view]
    exact silent
  | archived view archived owner execs silent =>
    refine .silent ?_ (by rw [view]; rfl)
    rw [show app'.mq = _ from congrArg View.mq view]
    exact silent
  | created checked opened commits ledger => exact extends_created inv same checked rfl opened commits
  | @changed a m change target now _ ps mq held journaled changes execs =>
    have posted : app'.mq.posted = app.mq.posted ++ (reportsOf app.heap change now (app.view.maxId m) ps).map
        fun e => .createExec (MsgQueue.execBody e) := by
      rw [show app'.mq = mq from changes.mq]
      exact congrArg MsgQueue.posted journaled
    refine .quiet posted (List.forall_mem_map.mpr fun x member => tradeOf_none fun both => ?_) ?_
    · exact (reportsOf_state app.heap change now _ ps (fun p inside => (held p inside).1.accnt) x member).2 both.1
    · rw [changes.last]
  | @traded a m ref side lots ticks liqInd cpty created _ _ traded =>
    have told : ∃ msgs x, app'.mq.posted = app.mq.posted ++ (msgs ++ [.createExec (MsgQueue.execBody x)]) ∧
        x.state = .trade ∧ x.marketId = m ∧ (∀ msg ∈ msgs, m ≠ n → msg.tradeOf n = none) ∧
        (if cpty.isEmpty then 1 else 2) ≤ app.mq.reserve ∧ app'.view.last = app.view.last ∧
        (MsgQueue.execBody x).last =
          (MsgQueue.execBody (app.manualTrade a m ref side lots ticks liqInd cpty created)).last := by
      cases traded with
      | @oneSided _ mq alone journal view =>
        refine ⟨[], _, ?_, rfl, rfl, by simp, ?_, by rw [view]; rfl, rfl⟩
        · rw [show app'.mq = mq from congrArg View.mq view]
          exact congrArg MsgQueue.posted (MsgQueue.Journaled.of_createExec journal)
        · rw [if_pos alone]
          simp only [MsgQueue.createExec, MsgQueue.post] at journal
          split at journal
          next room => simp only [MsgQueue.reserve]; omega
          next => cases journal
      | @twoSided _ mq paired journal view =>
        refine ⟨[.createExec (MsgQueue.execBody (app.manualTrade a m ref side lots ticks liqInd cpty created))],
          (app.manualTrade a m ref side lots ticks liqInd cpty created).opposite (app.view.maxId m + 2), ?_, rfl, rfl,
          fun msg member differ => ?_, ?_, by rw [view]; rfl, rfl⟩
        · rw [show app'.mq = mq from congrArg View.mq view]
          exact congrArg MsgQueue.posted (MsgQueue.Journaled.of_createExecs journal)
        · rw [List.mem_singleton.mp member]
          exact tradeOf_none fun both => differ both.2
        · rw [if_neg (by rw [paired]; decide)]
          by_contra short
          rw [MsgQueue.createExecs_eq_none.mpr (by simpa using short)] at journal
          cases journal
    obtain ⟨msgs, x, posted, state, marketId, others, room, last, told⟩ := told
    by_cases here : m = n
    · exact .trade posted state (marketId.trans here) (by rw [last, told]; exact (same here room).symm) here
    · refine .quiet posted (fun msg member => ?_) (by rw [last])
      cases List.mem_append.mp member with
      | inl first => exact others msg first here
      | inr second =>
        rw [List.mem_singleton.mp second]
        exact tradeOf_none fun both => here (marketId.symm.trans both.2)

/-! ## Runs -/

theorem admission_view (view : app₀.view = app.view) (a : Symbol) (m : Int) (ref : Bytes) (lots minLots busDay : Int) :
    app₀.admission a m ref lots minLots busDay = app.admission a m ref lots minLots busDay := by
  have refs : (app₀.sess a).refIdx = (app.sess a).refIdx := congrFun (congrArg View.refs view) a
  obtain ⟨instr, settlDay⟩ := terms_view view m
  simp only [admission, Sess.exists, refs, instr, settlDay]
  rfl

theorem SameLast.of_view (view : app₀.view = app.view) (same : op.SameLast n app) : op.SameLast n app₀ := by
  have heap : app₀.heap = app.heap := congrArg View.heap view
  have mq : app₀.mq = app.mq := congrArg View.mq view
  cases op with
  | createOrder a m ref side lots ticks minLots now busDay =>
    simp only [Op.SameLast, makers, incoming_view view, admission_view view, view, heap]
    exact same
  | createTrade a m ref side lots ticks liqInd cpty created =>
    obtain ⟨instr, settlDay⟩ := terms_view view m
    simp only [Op.SameLast, manualTrade, instr, settlDay, view, mq]
    exact same
  | sess | createMarket | updateMarket | changeOrder | archiveExec | archiveTrade | archiveTrades | pop => trivial

theorem withMarket_unknown {α : Type} (unknown : app.markets.find m = none) (f : Outcome α) :
    (app.withMarket m f).state = some app := by
  simp [withMarket, unknown, Outcome.state]

/-- An operation on a market that does not exist does nothing. -/
theorem view_unknown (unknown : app.markets.find n = none) (trades : op.TradesIn n) (stepped : app.step op = some app') :
    app'.view = app.view := by
  cases op with
  | createOrder a m =>
    obtain rfl : m = n := trades
    rw [App.step, call, withMarket_unknown (show (app.ensureSess a).markets.find m = none from unknown)] at stepped
    cases stepped
    exact view_ensureSess a
  | createTrade a m =>
    obtain rfl : m = n := trades
    rw [App.step, call, withMarket_unknown (show (app.ensureSess a).markets.find m = none from unknown)] at stepped
    cases stepped
    exact view_ensureSess a
  | sess | createMarket | updateMarket | changeOrder | archiveExec | archiveTrade | archiveTrades | pop => cases trades

theorem SameLast.of_other (other : ¬ op.TradesIn n) (app : App) : op.SameLast n app := by
  cases op with
  | createOrder | createTrade => exact fun here => absurd here other
  | sess | createMarket | updateMarket | changeOrder | archiveExec | archiveTrade | archiveTrades | pop => trivial

theorem step_extends (inv : app.Inv) (same : (app.markets.find n).isSome → op.SameLast n app)
    (stepped : app.step op = some app') : Extends n app op app' := by
  have always : op.SameLast n app → Extends n app op app' := by
    intro same
    obtain ⟨app₀, view, -, inv₀, effect, -⟩ := step_effect inv stepped
    have extends₀ := effect.extends inv₀ (SameLast.of_view view same)
    have mq : app₀.mq = app.mq := congrArg View.mq view
    obtain ⟨posted, tracks⟩ := extends₀
    rw [mq] at posted
    rw [Tracks, view, mq] at tracks
    exact ⟨posted, tracks⟩
  by_cases trades : op.TradesIn n
  · cases known : app.markets.find n with
    | some market => exact always (same (by rw [known]; rfl))
    | none =>
      have view := view_unknown known trades stepped
      exact .silent (by rw [show app'.mq = app.mq from congrArg View.mq view]; exact .refl _) (by rw [view])
  · exact always (SameLast.of_other trades app)

/-- The journal creates the markets that exist. -/
theorem opens_step (inv : app.Inv) (opens : (app.listing n).isSome → Opens n app.mq.posted)
    {msgs : List Msg} (posted : app'.mq.posted = app.mq.posted ++ msgs) (stepped : app.step op = some app')
    (listed : (app'.listing n).isSome) : Opens n app'.mq.posted := by
  rw [posted]
  cases known : app.listing n with
  | some _ => exact (opens (by rw [known]; rfl)).append_left msgs
  | none =>
    obtain ⟨instr, settlDay, state, member⟩ := created_posts inv stepped posted known listed
    exact ⟨instr, settlDay, state, List.mem_append_right _ member⟩

/-- What a run keeps for the market. -/
structure Traced (n : Int) (app : App) : Prop where
  inv : app.Inv
  tracks : app.Tracks n
  founded : Founded n app.mq.posted
  opens : (app.listing n).isSome → Opens n app.mq.posted

theorem Traced.step (traced : Traced n app) (same : (app.markets.find n).isSome → op.SameLast n app)
    (stepped : app.step op = some app') : Traced n app' := by
  obtain ⟨⟨msgs, posted, traded⟩, tracks⟩ := step_extends traced.inv same stepped
  exact
    { inv := traced.inv.step stepped
      tracks := tracks traced.tracks
      founded := by
        rw [posted]
        refine traced.founded.append fun more => ?_
        cases known : app.markets.find n with
        | some market => exact traced.opens (by rw [listing, known]; rfl)
        | none =>
          -- Nothing is journaled for a market that does not exist.
          rw [show app'.mq = app.mq from congrArg View.mq (view_unknown known (traded more) stepped)] at posted
          obtain rfl : msgs = [] := by simpa using posted
          obtain ⟨msg, member, -⟩ := more
          cases member
      opens := opens_step traced.inv traced.opens posted stepped }

theorem traced_make (capacity maxExecs : Nat) (n : Int) : (App.make capacity maxExecs).Traced n where
  inv := .make capacity maxExecs
  tracks := rfl
  founded := Chronicle.nil
  opens listed := by cases listed

/-- A reload preserves the last trade of a market whose trades are all read back as they are. -/
theorem last_reloaded {capacity maxExecs : Nat} {ops : List Op} {db : Db} {market : Market}
    (run : Run App.step (fun app op => (app.markets.find n).isSome → op.SameLast n app) (App.make capacity maxExecs) ops app)
    (journal : Run SqliteJourn.write (fun _ _ => True) Db.empty app.mq.posted db) (found : app.markets.find n = some market) :
    ∃ row, db.markets.find n = some row ∧ (db.market n row).last = market.last := by
  have traced : app.Traced n :=
    run.invariant (fun _ _ _ traced same stepped => traced.step same stepped) (traced_make capacity maxExecs n)
  have columns := Columns.run traced.founded journal
  obtain ⟨row, present⟩ := Option.isSome_iff_exists.mp
    (columns.opened (traced.opens (by rw [listing, found]; rfl)))
  refine ⟨row, present, ?_⟩
  have live : app.view.last n = market.last := by rw [last_view, App.market, OrdMap.get_of_find found]
  rw [last_market, columns.last row present, ← live]
  exact traced.tracks.symm

/-- Orders that match twice, and a trade by hand in between that repeats the last trade. -/
theorem last_reloaded_twice :
    let a : Symbol := .assign (bytes "MARAYL")
    let b : Symbol := .assign (bytes "GOSAYL")
    let m := toMarketId 1 0
    ∃ app db market row, Run App.step (fun app op => (app.markets.find m).isSome → op.SameLast m app) (App.make 16 16)
        [.createMarket 1 (.assign (bytes "EURUSD")) 0 0 0, .createOrder a m [] .sell 10 5 0 2000000 0,
          .createOrder b m [] .buy 4 6 0 3000000 0, .createTrade b m [] .buy 4 5 .none default 3000001,
          .createOrder b m [] .buy 5 6 0 4000000 0] app ∧
      Run SqliteJourn.write (fun _ _ => True) Db.empty app.mq.posted db ∧ app.markets.find m = some market ∧
      db.markets.find m = some row ∧ (db.market m row).last = market.last ∧ market.last = (5, 5, 4000000) := by
  intro a b m
  have made : ∃ app ∈ Run.exec App.step (fun app op => (app.markets.find m).isSome → op.SameLast m app) (App.make 16 16)
      [.createMarket 1 (.assign (bytes "EURUSD")) 0 0 0, .createOrder a m [] .sell 10 5 0 2000000 0,
        .createOrder b m [] .buy 4 6 0 3000000 0, .createTrade b m [] .buy 4 5 .none default 3000001,
        .createOrder b m [] .buy 5 6 0 4000000 0],
      ∃ db ∈ Run.exec SqliteJourn.write (fun _ _ => True) Db.empty app.mq.posted, ∃ market ∈ app.markets.find m,
        market.last = (5, 5, 4000000) := by decide
  obtain ⟨app, done, db, written, market, found, last⟩ := made
  obtain ⟨row, present, same⟩ := last_reloaded (.of_exec done) (.of_exec written) found
  exact ⟨app, db, market, row, .of_exec done, .of_exec written, found, present, same, last⟩

/-- A trade by hand is not the last trade of the live market. -/
theorem last_by_hand :
    let a : Symbol := .assign (bytes "MARAYL")
    let m := toMarketId 1 0
    ∃ app db market row, Run App.step (fun _ _ => True) (App.make 16 16)
        [.createMarket 1 (.assign (bytes "EURUSD")) 0 0 0, .createTrade a m [] .buy 2 7 .none default 5000000] app ∧
      Run SqliteJourn.write (fun _ _ => True) Db.empty app.mq.posted db ∧ app.markets.find m = some market ∧
      db.markets.find m = some row ∧ market.last = (0, 0, 0) ∧ (db.market m row).last = (2, 7, 5000000) := by
  intro a m
  have made : ∃ app ∈ Run.exec App.step (fun _ _ => True) (App.make 16 16)
      [.createMarket 1 (.assign (bytes "EURUSD")) 0 0 0, .createTrade a m [] .buy 2 7 .none default 5000000],
      ∃ db ∈ Run.exec SqliteJourn.write (fun _ _ => True) Db.empty app.mq.posted, ∃ market ∈ app.markets.find m,
        ∃ row ∈ db.markets.find m, market.last = (0, 0, 0) ∧ (db.market m row).last = (2, 7, 5000000) := by decide
  obtain ⟨app, done, db, written, market, found, row, present, live, stored⟩ := made
  exact ⟨app, db, market, row, .of_exec done, .of_exec written, found, present, live, stored⟩

end App

end Swirly
