import Swirly.Verified.App.Trades
import Swirly.Verified.Matching

/-!
# The journal and what is committed

The executions of a call are journaled before its commit phase, which stamps the trades of matches.  So the journal has
an execution as it is stored in the end exactly when its stamp is that of an empty position.
-/

namespace Swirly

open Function

/-- No lots, and none that cost anything. -/
def Posn.Flat (posn : Posn) : Prop := posn.netLots = 0 ∧ posn.netCost = 0

instance (posn : Posn) : Decidable posn.Flat := inferInstanceAs (Decidable (_ ∧ _))

def addLots (posn : Symbol → Int → Posn) (a : Symbol) (m : Int) (side : Side) (lots ticks : Int) : Symbol → Int → Posn :=
  update posn a (update (posn a) m ((posn a m).addTrade side lots ticks))

/-- Every trade of the deals meets a flat position: deal by deal, that of the maker and then that of the taker. -/
def MeetFlat (h : Heap) (taker : Order) (m : Int) : (Symbol → Int → Posn) → List Deal → Prop
  | _, [] => True
  | posn, d :: ds =>
    let maker := h.order d.maker
    let made := addLots posn maker.accnt m maker.side d.lots d.ticks
    (posn maker.accnt m).Flat ∧ (made taker.accnt m).Flat ∧
      MeetFlat h taker m (addLots made taker.accnt m taker.side d.lots d.ticks) ds

instance decidableMeetFlat (h : Heap) (taker : Order) (m : Int) :
    (posn : Symbol → Int → Posn) → (ds : List Deal) → Decidable (MeetFlat h taker m posn ds)
  | _, [] => .isTrue trivial
  | _, _ :: ds => @instDecidableAnd _ _ _ (@instDecidableAnd _ _ _ (decidableMeetFlat h taker m _ ds))

namespace App

variable {app app' : App} {a : Symbol} {m now : Int} {op : Op} {news : List Exec} {es : List ExecPtr}

/-- The journal has the executions that the call has stored, each as it is stored, and each of them is filed once. -/
structure Recorded (app app' : App) : Prop where
  journal : app'.mq.posted = app.mq.posted ++
    (app.newAddresses (app'.execs.fresh - app.execs.fresh)).map fun e => .createExec (MsgQueue.execBody (app'.exec e))
  filed : ∃ es : List ExecPtr, es.Perm (app.newAddresses (app'.execs.fresh - app.execs.fresh)) ∧
    (∀ a, (app'.sess a).execs = pushAll app.maxExecs (app.sess a).execs (es.filter fun e => (app'.exec e).accnt = a)) ∧
    ∀ a k e, (app'.sess a).trades.find k = some e ↔ (app.sess a).trades.find k = some e ∨
      (e ∈ es ∧ (app'.exec e).state = .trade ∧ (app'.exec e).accnt = a ∧ (app'.exec e).key = k)

/-- What a call files is filed once, and the journal has it as it was before the commit phase. -/
theorem Filed.recorded_iff (sound : app.TradesSound) (filed : Filed app app' news es) (numbered : Numbered app app' news m) :
    Recorded app app' ↔ ∀ e ∈ app.newAddresses news.length,
      MsgQueue.execBody (app'.exec e) = MsgQueue.execBody ((app.view.ledger (app.execs.allocs news)).exec e) := by
  have fresh : app'.execs.fresh - app.execs.fresh = news.length := by rw [filed.fresh, Nat.add_sub_cancel_left]
  have posted : app'.mq.posted = app.mq.posted ++ (app.newAddresses news.length).map fun e =>
      .createExec (MsgQueue.execBody ((app.view.ledger (app.execs.allocs news)).exec e)) := by
    rw [show app'.mq = _ from filed.journaled]
    show _ ++ news.map (fun x => Msg.createExec (MsgQueue.execBody x)) = _
    congr 1
    conv_lhs => rw [← map_newAddresses app news, List.map_map]
    rfl
  constructor
  · intro recorded e member
    have journal := recorded.journal
    rw [fresh, posted] at journal
    have same := List.map_inj_left.mp (List.append_cancel_left journal) e member
    exact (Msg.createExec.inj same).symm
  · intro same
    refine ⟨?_, es, ?_, fun a => ?_, sound.find_trades filed numbered⟩
    · rw [fresh, posted]
      congr 1
      exact List.map_congr_left fun e member => by rw [same e member]
    · rw [fresh]
      exact filed.addresses
    · exact filed.history a

theorem execBody_stampedWith {x : Exec} (blank : x.posnLots = 0 ∧ x.posnCost = 0) (posn : Symbol → Int → Posn) :
    MsgQueue.execBody (x.stampedWith posn) = MsgQueue.execBody x ↔ (posn x.accnt x.marketId).Flat := by
  constructor
  · intro same
    have lots := congrArg CreateExec.posnLots same
    have costs := congrArg CreateExec.posnCost same
    exact ⟨lots.trans blank.1, costs.trans blank.2⟩
  · intro flat
    have same : x.stampedWith posn = x :=
      calc x.stampedWith posn = x.posn 0 0 := by rw [Exec.stampedWith, flat.1, flat.2]
        _ = x.posn x.posnLots x.posnCost := by rw [blank.1, blank.2]
    rw [same]

/-- Every trade among the reports is added to a flat position. -/
def FlatRun (exec : ExecPtr → Exec) : (Symbol → Int → Posn) → List ExecPtr → Prop
  | _, [] => True
  | posn, e :: es =>
    ((exec e).state = .trade → (posn (exec e).accnt (exec e).marketId).Flat) ∧ FlatRun exec (addTrades exec posn [e]) es

theorem flatRun_iff (exec : ExecPtr → Exec) (posn : Symbol → Int → Posn) (es : List ExecPtr) :
    FlatRun exec posn es ↔ ∀ before e after, es = before ++ e :: after → (exec e).state = .trade →
      (addTrades exec posn before (exec e).accnt (exec e).marketId).Flat := by
  induction es generalizing posn with
  | nil => exact iff_of_true trivial fun before e after split => by simp at split
  | cons d es inductionHypothesis =>
    rw [FlatRun, inductionHypothesis]
    constructor
    · intro flat before e after split trade
      cases before with
      | nil =>
        obtain ⟨rfl, -⟩ := List.cons.inj split
        exact flat.1 trade
      | cons c before =>
        obtain ⟨rfl, rest⟩ := List.cons.inj split
        rw [← List.singleton_append, addTrades_append]
        exact flat.2 before e after rest trade
    · intro flat
      refine ⟨fun trade => flat [] d es rfl trade, fun before e after split trade => ?_⟩
      rw [← addTrades_append]
      exact flat ([d] ++ before) e after (by rw [split]; rfl) trade

/-- The journal is right when all trades that are stamped meet flat positions. -/
theorem Filed.recorded_flat (sound : app.TradesSound) (filed : Filed app app' news (app.newAddresses news.length))
    (stamped : Stamped (app.view.ledger (app.execs.allocs news)) (app.newAddresses news.length) app'.ledger)
    (numbered : Numbered app app' news m) (blank : ∀ x ∈ news, x.posnLots = 0 ∧ x.posnCost = 0) :
    Recorded app app' ↔ FlatRun (app.view.ledger (app.execs.allocs news)).exec app.view.posn
      (app.newAddresses news.length) := by
  obtain ⟨l, start⟩ : ∃ l, l = app.view.ledger (app.execs.allocs news) := ⟨_, rfl⟩
  have blanks : ∀ e ∈ app.newAddresses news.length, (l.exec e).posnLots = 0 ∧ (l.exec e).posnCost = 0 := fun e member => by
    refine blank _ ?_
    have inside := List.mem_map_of_mem (f := l.exec) member
    rwa [start, map_newAddresses, ← start] at inside
  have posn : l.posn = app.view.posn := by rw [start]; rfl
  rw [filed.recorded_iff sound numbered, flatRun_iff, ← start, ← posn]
  rw [← start] at stamped
  constructor
  · intro same before e after split trade
    have member : e ∈ app.newAddresses news.length := by rw [split]; simp
    have body := same e member
    rw [show app'.exec e = _ from stamped.trades before e after split trade] at body
    exact (execBody_stampedWith (blanks e member) _).mp body
  · intro flat e member
    by_cases trade : (l.exec e).state = .trade
    · obtain ⟨before, after, split⟩ := List.append_of_mem member
      rw [show app'.exec e = _ from stamped.trades before e after split trade]
      exact (execBody_stampedWith (blanks e member) _).mpr (flat before e after split trade)
    · rw [show app'.exec e = l.exec e from stamped.others e fun _ => trade]

/-- The trades of the fills meet flat positions when those of the deals do. -/
theorem flatRun_fills {o : Order} {h : Heap} {exec : ExecPtr → Exec} (fs : List Fill) (posn : Symbol → Int → Posn)
    (made : ∀ f ∈ fs, exec f.makerTrade = f.makerExec h o now ∧ exec (f.makerTrade + 1) = f.takerExec h o now)
    (makers : ∀ f ∈ fs, (h.order f.maker).marketId = m) (taker : o.marketId = m) :
    FlatRun exec posn (fs.flatMap Fill.trades) ↔ MeetFlat h o m posn (fs.map (Fill.deal h)) := by
  induction fs generalizing posn with
  | nil => exact Iff.rfl
  | cons f fs inductionHypothesis =>
    obtain ⟨⟨maker, second⟩, made⟩ := List.forall_mem_cons.mp made
    obtain ⟨marketId, makers⟩ := List.forall_mem_cons.mp makers
    rw [List.flatMap_cons, List.map_cons]
    show FlatRun exec posn (f.makerTrade :: (f.makerTrade + 1) :: fs.flatMap Fill.trades) ↔ _
    have makerMarket : (exec f.makerTrade).marketId = m := by rw [maker]; exact marketId
    have takerMarket : (exec (f.makerTrade + 1)).marketId = m := by rw [second]; exact taker
    have first : addTrades exec posn [f.makerTrade] =
        addLots posn (h.order f.maker).accnt m (h.order f.maker).side f.lots (h.order f.maker).ticks := by
      show (if (exec f.makerTrade).state = .trade then addTrade posn _ (exec f.makerTrade).marketId _ else posn) = _
      rw [makerMarket, maker]
      rfl
    have next : ∀ posn, addTrades exec posn [f.makerTrade + 1] =
        addLots posn o.accnt m o.side f.lots (h.order f.maker).ticks := fun posn => by
      show (if (exec (f.makerTrade + 1)).state = .trade then addTrade posn _ (exec (f.makerTrade + 1)).marketId _ else posn) = _
      rw [takerMarket, second]
      rfl
    rw [FlatRun, FlatRun, first, next, inductionHypothesis _ made makers, makerMarket, takerMarket, maker, second]
    constructor
    · intro flat
      exact ⟨flat.1 rfl, flat.2.1 rfl, flat.2.2⟩
    · intro flat
      exact ⟨fun _ => flat.1, fun _ => flat.2.1, flat.2.2⟩

end App

/-- The matches of a new order meet flat positions. -/
def Op.MeetsFlat (app : App) : Op → Prop
  | createOrder a m ref side lots ticks minLots now _ =>
    MeetFlat app.heap (app.incoming a m ref side lots ticks minLots now) m (fun a m => app.posn (a, m))
      (app.deals m (app.incoming a m ref side lots ticks minLots now))
  | _ => True

instance (app : App) (op : Op) : Decidable (op.MeetsFlat app) :=
  match op with
  | .createOrder _ _ _ _ _ _ _ _ _ => decidableMeetFlat _ _ _ _ _
  | .sess .. | .createMarket .. | .updateMarket .. | .changeOrder .. | .createTrade .. | .archiveExec .. | .archiveTrade ..
  | .archiveTrades .. | .pop => .isTrue trivial

/-- The calls that create executions. -/
def Op.Reports : Op → Prop
  | createOrder .. | changeOrder .. | createTrade .. => True
  | _ => False

namespace App

variable {app app' : App} {a : Symbol} {m now : Int} {op : Op} {news : List Exec} {es : List ExecPtr} {result : Reply}

theorem withMarket_ok {α : Type} {f : Outcome α} {result : α} (done : app.withMarket m f = .ok result app') :
    f = .ok result app' := by
  rw [withMarket] at done
  split at done
  next => exact done
  next => cases done

theorem map_ok {α β : Type} {f : α → β} {outcome : Outcome α} {result : β} (done : outcome.map f = .ok result app') :
    ∃ inner, outcome = .ok inner app' ∧ f inner = result := by
  cases outcome with
  | ok inner app => cases done; exact ⟨inner, rfl, rfl⟩
  | throw => cases done
  | fault => cases done

theorem Recorded.of_ensureSess : Recorded (app.ensureSess a) app' ↔ Recorded app app' := by
  have sess : ∀ b, ((app.ensureSess a).sess b).execs = (app.sess b).execs ∧
      ((app.ensureSess a).sess b).trades = (app.sess b).trades := fun b =>
    ⟨congrFun (congrArg View.history (view_ensureSess a)) b, congrFun (congrArg View.trades (view_ensureSess a)) b⟩
  constructor
  · intro recorded
    obtain ⟨journal, es, addresses, history, trades⟩ := recorded
    exact ⟨journal, es, addresses, fun b => by rw [← (sess b).1]; exact history b,
      fun b k e => by rw [← (sess b).2]; exact trades b k e⟩
  · intro recorded
    obtain ⟨journal, es, addresses, history, trades⟩ := recorded
    exact ⟨journal, es, addresses, fun b => by rw [(sess b).1]; exact history b,
      fun b k e => by rw [(sess b).2]; exact trades b k e⟩

theorem TradesSound.ensureSess (sound : app.TradesSound) (a : Symbol) : (app.ensureSess a).TradesSound :=
  sound.of_view (view_ensureSess a) rfl

theorem created_recorded_iff (inv : app.Inv) (sound : app.TradesSound) {o : Order} (new : New app a m o) (state : o.state = .new)
    (open_ : o.resdLots = o.lots)
    (filed : Filed app app' (newReports app o now (app.incomingFills m o))
      (app.newAddresses (newReports app o now (app.incomingFills m o)).length))
    (stamped : Stamped (app.view.ledger (app.execs.allocs (newReports app o now (app.incomingFills m o))))
      (app.newAddresses (newReports app o now (app.incomingFills m o)).length) app'.ledger)
    (numbered : Numbered app app' (newReports app o now (app.incomingFills m o)) m) :
    Recorded app app' ↔ MeetFlat app.heap o m app.view.posn (app.deals m o) := by
  obtain ⟨l, start⟩ : ∃ l, l = app.view.ledger (app.execs.allocs (newReports app o now (app.incomingFills m o))) := ⟨_, rfl⟩
  obtain ⟨first, trades⟩ := exec_newReports app m o now start
  have quiet : (l.exec app.execs.fresh).state ≠ .trade := by
    rw [first]
    show o.state ≠ .trade
    rw [state]
    nofun
  rw [filed.recorded_flat sound stamped numbered, incoming_trades, deals_eq o open_, ← start, FlatRun,
    show addTrades l.exec app.view.posn [app.execs.fresh] = app.view.posn from if_neg quiet,
    flatRun_fills _ _ trades (fun f member => inv.live.market m _ _ (mem_fillsOf member).1) new.marketId]
  · exact and_iff_right fun trade => absurd trade quiet
  · refine List.forall_mem_cons.mpr ⟨⟨rfl, rfl⟩, fun x member => ?_⟩
    obtain ⟨f, -, made⟩ := List.mem_flatMap.mp member
    cases List.mem_pair.mp made with
    | inl maker => rw [maker]; exact ⟨rfl, rfl⟩
    | inr taker => rw [taker]; exact ⟨rfl, rfl⟩

/-- Executions that the commit phase does not touch are journaled as they are stored. -/
theorem Filed.recorded (sound : app.TradesSound) (filed : Filed app app' news es) (numbered : Numbered app app' news m)
    (execs : app'.execs = app.execs.allocs news) : Recorded app app' :=
  (filed.recorded_iff sound numbered).mpr fun e _ => by
    rw [App.exec, execs]
    rfl

end App

end Swirly
