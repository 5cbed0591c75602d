import Swirly.Verified.App.View

/-!
# Histories, trades and positions

What the commit phase files: the report goes to the history of its account, and a trade also to the trades and to
the position of its account.  A trade of a match is stamped with the position just before.  The view hides the
stamps, so `Ledger` holds the executions themselves.
-/

namespace Swirly

open Function

structure Ledger where
  maxExecs : Nat
  execs : Store Exec
  history : Symbol → List ExecPtr
  trades : Symbol → OrdMap IdKey ExecPtr
  posn : Symbol → Int → Posn

/-- The trade is added to the position of the account `a` in the market `m`. -/
def addTrade (posn : Symbol → Int → Posn) (a : Symbol) (m : Int) (trade : Exec) : Symbol → Int → Posn :=
  update posn a (update (posn a) m ((posn a m).addTrade trade.side trade.lastLots trade.lastTicks))

namespace Ledger

variable (l : Ledger) (a : Symbol) (m : Int) (e : ExecPtr)

def exec : Exec := l.execs.get e

def push : Ledger := { l with history := update l.history a ((e :: l.history a).take l.maxExecs) }

/-- Record the position before the trade. -/
def stamp : Ledger := { l with execs := l.execs.put e ((l.exec e).posn (l.posn a m).netLots (l.posn a m).netCost) }

def file : Ledger :=
  { l.push a e with
    trades := update l.trades a ((l.trades a).insert (l.exec e).key e)
    posn := addTrade l.posn a m (l.exec e) }

/-- What `commit_matches` does for one trade. -/
def book : Ledger := (l.stamp a m e).file a m e

/-- A report goes where it belongs. -/
def enter : Ledger :=
  if (l.exec e).state = .trade then l.book (l.exec e).accnt (l.exec e).marketId e else l.push (l.exec e).accnt e

end Ledger

/-- The same report, with its own stamp. -/
theorem Exec.eq_posn {x y : Exec} (same : x.unstamped = y.unstamped) : x = y.posn x.posnLots x.posnCost := by
  have stamped := congrArg (fun z : Exec => z.posn x.posnLots x.posnCost) same
  exact stamped

/-! ## Many reports -/

/-- The positions after the trades among the reports. -/
def addTrades (exec : ExecPtr → Exec) (posn : Symbol → Int → Posn) (es : List ExecPtr) : Symbol → Int → Posn :=
  es.foldl (fun posn e =>
    if (exec e).state = .trade then addTrade posn (exec e).accnt (exec e).marketId (exec e) else posn) posn

/-- The trades of the accounts after those among the reports. -/
def insertTrades (exec : ExecPtr → Exec) (trades : Symbol → OrdMap IdKey ExecPtr) (es : List ExecPtr) :
    Symbol → OrdMap IdKey ExecPtr :=
  es.foldl (fun trades e =>
    if (exec e).state = .trade then
      update trades (exec e).accnt ((trades (exec e).accnt).insert (exec e).key e)
    else trades) trades

/-- Trades with new keys are all found, and those that were there before. -/
theorem find_insertTrades {exec : ExecPtr → Exec} (es : List ExecPtr) (trades : Symbol → OrdMap IdKey ExecPtr)
    (absent : ∀ e ∈ es, (exec e).state = .trade → (trades (exec e).accnt).find (exec e).key = none)
    (distinct : es.Pairwise fun e d => (exec e).state = .trade → (exec d).state = .trade → (exec e).key ≠ (exec d).key)
    (a : Symbol) (k : IdKey) (e : ExecPtr) :
    (insertTrades exec trades es a).find k = some e ↔ (trades a).find k = some e ∨
      (e ∈ es ∧ (exec e).state = .trade ∧ (exec e).accnt = a ∧ (exec e).key = k) := by
  induction es generalizing trades with
  | nil => simp [insertTrades]
  | cons d es inductionHypothesis =>
    obtain ⟨absentFirst, absent⟩ := List.forall_mem_cons.mp absent
    obtain ⟨distinctFirst, distinct⟩ := List.pairwise_cons.mp distinct
    rw [List.mem_cons, or_and_right, ← or_assoc]
    show (insertTrades exec (if (exec d).state = .trade then _ else trades) es a).find k = some e ↔ _
    by_cases trade : (exec d).state = .trade
    · rw [if_pos trade, inductionHypothesis _ _ distinct]
      · refine or_congr ?_ Iff.rfl
        rw [update_apply]
        by_cases own : a = (exec d).accnt
        · rw [if_pos own, OrdMap.find_insert, absentFirst trade]
          by_cases here : k = (exec d).key
          · rw [if_pos here, own, here, absentFirst trade]
            constructor
            · intro found
              obtain rfl : d = e := Option.some.inj found
              exact .inr ⟨rfl, trade, rfl, rfl⟩
            · intro either
              rw [(either.resolve_left nofun).1]
              rfl
          · rw [if_neg here, own]
            refine ⟨.inl, fun either => either.resolve_right fun found => here ?_⟩
            rw [← found.2.2.2, found.1]
        · rw [if_neg own]
          refine ⟨.inl, fun either => either.resolve_right fun found => own ?_⟩
          rw [← found.2.2.1, found.1]
      · intro c member tradeC
        rw [update_apply]
        split
        next own =>
          rw [OrdMap.find_insert, if_neg (Ne.symm (distinctFirst c member trade tradeC)), ← own]
          exact absent c member tradeC
        next => exact absent c member tradeC
    · rw [if_neg trade, inductionHypothesis _ absent distinct]
      refine or_congr ?_ Iff.rfl
      exact ⟨.inl, fun either => either.resolve_right fun found => trade (found.1 ▸ found.2.1)⟩

/-- A history after more reports. -/
def pushAll (maxExecs : Nat) (history : List ExecPtr) (es : List ExecPtr) : List ExecPtr :=
  es.foldl (fun history e => (e :: history).take maxExecs) history

theorem addTrades_append (exec : ExecPtr → Exec) (posn : Symbol → Int → Posn) (es ds : List ExecPtr) :
    addTrades exec posn (es ++ ds) = addTrades exec (addTrades exec posn es) ds := List.foldl_append

theorem insertTrades_append (exec : ExecPtr → Exec) (trades : Symbol → OrdMap IdKey ExecPtr) (es ds : List ExecPtr) :
    insertTrades exec trades (es ++ ds) = insertTrades exec (insertTrades exec trades es) ds := List.foldl_append

theorem pushAll_append (maxExecs : Nat) (history es ds : List ExecPtr) :
    pushAll maxExecs history (es ++ ds) = pushAll maxExecs (pushAll maxExecs history es) ds := List.foldl_append

/-- The newest report comes first. -/
theorem pushAll_eq (maxExecs : Nat) (history : List ExecPtr) {es : List ExecPtr} (some_report : es ≠ []) :
    pushAll maxExecs history es = (es.reverse ++ history).take maxExecs := by
  induction es generalizing history with
  | nil => exact absurd rfl some_report
  | cons e es inductionHypothesis =>
    show pushAll maxExecs ((e :: history).take maxExecs) es = _
    cases es with
    | nil => rfl
    | cons d es =>
      rw [inductionHypothesis _ (List.cons_ne_nil d es), List.reverse_cons (a := e), List.append_assoc, List.take_append,
        List.take_append, List.take_take]
      congr 2
      exact min_eq_left (Nat.sub_le _ _)

/-- The position of one account is that after its own trades. -/
theorem addTrades_apply (exec : ExecPtr → Exec) (posn : Symbol → Int → Posn) (es : List ExecPtr) (a : Symbol) (m : Int) :
    addTrades exec posn es a m =
      (es.filter fun e => (exec e).state = .trade ∧ (exec e).accnt = a ∧ (exec e).marketId = m).foldl
        (fun posn e => posn.addTrade (exec e).side (exec e).lastLots (exec e).lastTicks) (posn a m) := by
  induction es generalizing posn with
  | nil => rfl
  | cons e es inductionHypothesis =>
    rw [← List.singleton_append, addTrades_append, inductionHypothesis, List.filter_append, List.foldl_append]
    congr 1
    show (if (exec e).state = .trade then addTrade posn (exec e).accnt (exec e).marketId (exec e) else posn) a m = _
    by_cases own : (exec e).state = .trade ∧ (exec e).accnt = a ∧ (exec e).marketId = m
    · obtain ⟨trade, rfl, rfl⟩ := own
      rw [if_pos trade, addTrade, update_self, update_self, List.filter_cons_of_pos (by simpa using trade)]
      rfl
    · rw [List.filter_cons_of_neg (by simpa using own)]
      split
      next trade =>
        rw [addTrade, update_apply]
        split
        next accnt =>
          rw [update_of_ne fun market => own ⟨trade, accnt.symm, market.symm⟩, accnt]
          rfl
        next => rfl
      next => rfl

theorem addTrades_filter (exec : ExecPtr → Exec) (posn : Symbol → Int → Posn) (es : List ExecPtr) :
    addTrades exec posn (es.filter fun e => (exec e).state = .trade) = addTrades exec posn es := by
  funext a m
  rw [addTrades_apply, addTrades_apply, List.filter_filter]
  congr 2
  funext e
  by_cases trade : (exec e).state = .trade <;> simp [trade]

/-- Only what a report says without its stamp matters. -/
theorem addTrades_congr {exec exec' : ExecPtr → Exec} {es : List ExecPtr}
    (same : ∀ e ∈ es, (exec' e).unstamped = (exec e).unstamped) (posn : Symbol → Int → Posn) :
    addTrades exec' posn es = addTrades exec posn es := by
  induction es generalizing posn with
  | nil => rfl
  | cons e es inductionHypothesis =>
    obtain ⟨sameFirst, same⟩ := List.forall_mem_cons.mp same
    have step : addTrades exec' posn [e] = addTrades exec posn [e] := by
      show (if (exec' e).unstamped.state = .trade then
        addTrade posn (exec' e).unstamped.accnt (exec' e).unstamped.marketId (exec' e).unstamped else posn) = _
      rw [sameFirst]
      rfl
    rw [← List.singleton_append, addTrades_append, addTrades_append, inductionHypothesis same, step]

/-- The reports `es` have been filed, one after the other. -/
structure Entered (l : Ledger) (es : List ExecPtr) (l' : Ledger) : Prop where
  maxExecs : l'.maxExecs = l.maxExecs
  unstamped : ∀ e, (l'.exec e).unstamped = (l.exec e).unstamped
  live : ∀ e, (l'.execs.find e).isSome = (l.execs.find e).isSome
  history : ∀ a, l'.history a = pushAll l.maxExecs (l.history a) (es.filter fun e => (l.exec e).accnt = a)
  trades : l'.trades = insertTrades l.exec l.trades es
  posn : l'.posn = addTrades l.exec l.posn es

/-- The trade with the stamp of the positions. -/
def Exec.stampedWith (trade : Exec) (posn : Symbol → Int → Posn) : Exec :=
  trade.posn (posn trade.accnt trade.marketId).netLots (posn trade.accnt trade.marketId).netCost

/-- Each trade among them has been stamped with the position of its account just before. -/
structure Stamped (l : Ledger) (es : List ExecPtr) (l' : Ledger) : Prop where
  trades : ∀ before e after, es = before ++ e :: after → (l.exec e).state = .trade →
    l'.exec e = (l.exec e).stampedWith (addTrades l.exec l.posn before)
  others : ∀ e, (e ∈ es → (l.exec e).state ≠ .trade) → l'.exec e = l.exec e

namespace Entered

variable {l l' : Ledger} {es : List ExecPtr} {e : ExecPtr}

theorem nil (l : Ledger) : Entered l [] l where
  maxExecs := rfl
  unstamped _ := rfl
  live _ := rfl
  history _ := rfl
  trades := rfl
  posn := rfl

/-- The history with one more report. -/
theorem history_snoc (entered : Entered l es l') (e : ExecPtr) (a : Symbol) :
    (l'.push (l.exec e).accnt e).history a =
      pushAll l.maxExecs (l.history a) ((es ++ [e]).filter fun e => (l.exec e).accnt = a) := by
  rw [List.filter_append, pushAll_append, ← entered.history]
  show update l'.history (l.exec e).accnt _ a = _
  rw [update_apply]
  by_cases own : (l.exec e).accnt = a
  · rw [if_pos own.symm, List.filter_cons_of_pos (by exact decide_eq_true own), own, entered.maxExecs]
    rfl
  · rw [if_neg (Ne.symm own), List.filter_cons_of_neg (by simpa using own)]
    rfl

/-- One more report, that is no trade. -/
theorem push (entered : Entered l es l') (other : (l.exec e).state ≠ .trade) :
    Entered l (es ++ [e]) (l'.push (l.exec e).accnt e) where
  maxExecs := entered.maxExecs
  unstamped := entered.unstamped
  live := entered.live
  history := entered.history_snoc e
  trades := by
    rw [insertTrades_append, ← entered.trades]
    exact (if_neg other).symm
  posn := by
    rw [addTrades_append, ← entered.posn]
    exact (if_neg other).symm

/-- One more trade. -/
theorem file (entered : Entered l es l') (trade : (l.exec e).state = .trade) :
    Entered l (es ++ [e]) (l'.file (l.exec e).accnt (l.exec e).marketId e) where
  maxExecs := entered.maxExecs
  unstamped := entered.unstamped
  live := entered.live
  history := entered.history_snoc e
  trades := by
    rw [insertTrades_append, ← entered.trades]
    show update l'.trades _ ((l'.trades _).insert (l'.exec e).unstamped.key e) = _
    rw [entered.unstamped]
    exact (if_pos trade).symm
  posn := by
    rw [addTrades_append, ← entered.posn]
    show addTrade l'.posn (l.exec e).accnt (l.exec e).marketId (l'.exec e).unstamped = _
    rw [entered.unstamped]
    exact (if_pos trade).symm

/-- Its stamp makes no difference. -/
theorem stamp (entered : Entered l es l') (present : (l.execs.find e).isSome) (a : Symbol) (m : Int) :
    Entered l es (l'.stamp a m e) where
  maxExecs := entered.maxExecs
  unstamped d := by
    rw [← entered.unstamped]
    show Exec.unstamped ((l'.execs.put e _).get d) = _
    rw [OrdMap.get_put]
    split
    next same => rw [same]; rfl
    next => rfl
  live d := by
    rw [← entered.live]
    show ((l'.execs.put e _).find d).isSome = _
    rw [OrdMap.find_put]
    split
    next same => rw [same, entered.live, present]; rfl
    next => rfl
  history := entered.history
  trades := entered.trades
  posn := entered.posn

end Entered

/-- An element of a list with one more at the end: it is the last one, or it was there before. -/
theorem eq_of_append_singleton {α : Type} {xs before after : List α} {x y : α} (split : xs ++ [x] = before ++ y :: after) :
    before = xs ∧ y = x ∨ ∃ rest, after = rest ++ [x] ∧ xs = before ++ y :: rest := by
  cases List.eq_nil_or_concat after with
  | inl none_after =>
    rw [none_after] at split
    obtain ⟨whole, last⟩ := List.append_inj' split rfl
    exact .inl ⟨whole.symm, (List.cons.inj last).1.symm⟩
  | inr more =>
    obtain ⟨rest, z, rfl⟩ := more
    rw [List.concat_eq_append, ← List.cons_append, ← List.append_assoc] at split
    obtain ⟨whole, last⟩ := List.append_inj' split rfl
    exact .inr ⟨rest, by rw [List.concat_eq_append, (List.cons.inj last).1], whole⟩

/-- Filing report by report. -/
theorem entered_enter (l : Ledger) {es : List ExecPtr} (nodup : es.Nodup)
    (present : ∀ e ∈ es, (l.execs.find e).isSome) :
    Entered l es (es.foldl Ledger.enter l) ∧ Stamped l es (es.foldl Ledger.enter l) := by
  induction es using List.reverseRecOn with
  | nil => exact ⟨.nil l, fun before e after split => by simp at split, fun _ _ => rfl⟩
  | append_singleton es e inductionHypothesis =>
    obtain ⟨nodup, -, apart⟩ := List.nodup_append.mp nodup
    have fresh : e ∉ es := fun member => apart e member e (List.mem_singleton_self e) rfl
    obtain ⟨presentBefore, presentLast⟩ := List.forall_mem_append.mp present
    obtain ⟨entered, stamped⟩ := inductionHypothesis nodup presentBefore
    have own : (es.foldl Ledger.enter l).exec e = l.exec e := stamped.others e fun member => absurd member fresh
    rw [List.foldl_append, List.foldl_cons, List.foldl_nil, Ledger.enter, own]
    by_cases trade : (l.exec e).state = .trade
    · rw [if_pos trade]
      refine ⟨(entered.stamp (presentLast e (List.mem_singleton_self e)) _ _).file trade, fun before d after split isTrade => ?_,
        fun d quiet => ?_⟩
      · cases eq_of_append_singleton split with
        | inl last =>
          obtain ⟨rfl, rfl⟩ := last
          show ((before.foldl Ledger.enter l).execs.put d _).get d = _
          rw [OrdMap.get_put_self, entered.posn, own]
          rfl
        | inr earlier =>
          obtain ⟨rest, -, split⟩ := earlier
          have differ : d ≠ e := fun same => fresh (by rw [split, ← same]; simp)
          rw [← stamped.trades before d rest split isTrade]
          exact OrdMap.get_put_ne _ _ differ
      · have differ : d ≠ e := fun same => quiet (by rw [same]; simp) (same ▸ trade)
        rw [← stamped.others d fun member => quiet (List.mem_append_left _ member)]
        exact OrdMap.get_put_ne _ _ differ
    · rw [if_neg trade]
      refine ⟨entered.push trade, fun before d after split isTrade => ?_, fun d quiet => ?_⟩
      · cases eq_of_append_singleton split with
        | inl last => exact absurd (last.2 ▸ isTrade) trade
        | inr earlier =>
          obtain ⟨rest, -, split⟩ := earlier
          exact stamped.trades before d rest split isTrade
      · exact stamped.others d fun member => quiet (List.mem_append_left _ member)

def View.ledger (v : View) (execs : Store Exec) : Ledger := ⟨v.maxExecs, execs, v.history, v.trades, v.posn⟩

namespace App

variable {app app' : App} {a : Symbol} {m : Int} {e : ExecPtr}

def ledger (app : App) : Ledger := app.view.ledger app.execs

theorem ledger_stampPosn (a : Symbol) (m : Int) (e : ExecPtr) :
    (app.stampPosn e (a, m)).ledger = app.ledger.stamp a m e := rfl

theorem ledger_fileTrade (a : Symbol) (m : Int) (e : ExecPtr) :
    (app.fileTrade a m e).ledger = app.ledger.file a m e := by
  rw [ledger, view_fileTrade]
  simp only [View.fileTrade, View.ledger, report_view]
  rfl

/-- An order that leaves its session leaves nothing of this. -/
theorem ledger_removeOrder (a : Symbol) (o : Order) :
    (app.setSess a ((app.sess a).removeOrder o)).ledger = app.ledger := by
  rw [ledger, view_removeOrder]
  rfl

theorem ledger_setSide_setLast {s : Side} {h : Heap} {x : MarketSide} {lots ticks time : Int}
    (view : app'.view = (app.view.setSide m s h x).setLast m lots ticks time) (execs : app'.execs = app.execs) :
    app'.ledger = app.ledger := by
  rw [ledger, view, execs]
  rfl

end App

end Swirly
