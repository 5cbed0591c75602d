import Swirly.Lib.Keyed
import Swirly.Swirlyd.Routes
import Swirly.Verified.Accnt.Apart

/-!
# What a reply shows

An account's session leads to its own orders, executions, trades and positions only, and so does the response of a call
for it.  What is read of an account is a function of what there is to show of it.
-/

namespace Swirly

namespace Outcome

variable {α β : Type}

/-- How a call ends, apart from the state that it leaves. -/
def result : Outcome α → Option (Except Exception α)
  | ok result _ => some (.ok result)
  | throw e _ => some (.error e)
  | fault => none

/-- A result that leaves the engine alone. -/
def given (app : App) : Except Exception α → Outcome α
  | .ok result => .ok result app
  | .error e => .throw e app

theorem map_given (f : α → β) (app : App) (outcome : Except Exception α) : (given app outcome).map f = given app (outcome.map f) := by
  cases outcome <;> rfl

theorem result_given (app : App) (outcome : Except Exception α) : (given app outcome).result = some outcome := by
  cases outcome <;> rfl

theorem result_map {f : α → β} {first second : Outcome α} (same : first.result = second.result) :
    (first.map f).result = (second.map f).result := by
  cases first with
  | ok =>
    cases second with
    | ok => cases same; rfl
    | throw => cases same
    | fault => cases same
  | throw =>
    cases second with
    | ok => cases same
    | throw => cases same; rfl
    | fault => cases same
  | fault =>
    cases second with
    | ok => cases same
    | throw => cases same
    | fault => rfl

end Outcome

/-- The markets of a scope, which are one market when it names one. -/
def Scope.quotes (instrs : RefData) (shown : List ShownMarket) : Scope → Except Exception (List ShownMarket)
  | .all => .ok shown
  | .instr symbol => .ok (shown.filter (·.instr = symbol))
  | .market symbol settlDate | .ids symbol settlDate _ =>
    match RestApp.findMarket instrs symbol settlDate with
    | none => .error (RestServ.instrNotFound symbol)
    | some m =>
      match shown.find? (·.id = m) with
      | none => .error (.marketNotFound m)
      | some x => .ok [x]

/-- Everything that is shown belongs to accounts that are mine. -/
structure Shown.Of (shown : Shown) (Mine : Symbol → Prop) : Prop where
  orders : ∀ o ∈ shown.orders, Mine o.accnt
  execs : ∀ x ∈ shown.execs, Mine x.accnt
  trades : ∀ x ∈ shown.trades, Mine x.accnt
  posns : ∀ x ∈ shown.posns, Mine x.accnt

namespace Shown

variable {Mine Others : Symbol → Prop}

/-- Markets belong to no account. -/
theorem of_markets (markets : List ShownMarket) : ({ Shown.nothing with markets } : Shown).Of Mine :=
  ⟨List.forall_mem_nil _, List.forall_mem_nil _, List.forall_mem_nil _, List.forall_mem_nil _⟩

theorem of_nothing : Shown.nothing.Of Mine := of_markets []

theorem Of.mono {shown : Shown} (mine : shown.Of Mine) (weaker : ∀ a, Mine a → Others a) : shown.Of Others where
  orders o member := weaker _ (mine.orders o member)
  execs x member := weaker _ (mine.execs x member)
  trades x member := weaker _ (mine.trades x member)
  posns x member := weaker _ (mine.posns x member)

end Shown

namespace App

variable {app app' : App} {op : Op} {a b : Symbol}

/-! ## Sessions -/

/-- The executions of a session are those of its account. -/
def HistoryOwned (app : App) : Prop :=
  ∀ a e, e ∈ (app.sess a).execs → (app.execs.find e).isSome ∧ (app.exec e).accnt = a

theorem mem_pushAll {maxExecs : Nat} {history es : List ExecPtr} {e : ExecPtr} (member : e ∈ pushAll maxExecs history es) :
    e ∈ history ∨ e ∈ es := by
  by_cases none_filed : es = []
  · rw [none_filed] at member
    exact .inl member
  · rw [pushAll_eq _ _ none_filed] at member
    cases List.mem_append.mp (List.mem_of_mem_take member) with
    | inl new => exact .inr (List.mem_reverse.mp new)
    | inr old => exact .inl old

theorem HistoryOwned.filed {news : List Exec} {es : List ExecPtr} (owned : app.HistoryOwned) (filed : Filed app app' news es) :
    app'.HistoryOwned := by
  intro a e member
  rw [filed.history] at member
  cases mem_pushAll member with
  | inl old =>
    obtain ⟨present, accnt⟩ := owned a e old
    obtain ⟨x, found⟩ := Option.isSome_iff_exists.mp present
    obtain ⟨live, same⟩ := filed.old (OrdMap.lt_fresh found)
    refine ⟨live.trans present, ?_⟩
    rw [Exec.eq_posn same]
    exact accnt
  | inr new =>
    obtain ⟨listed, accnt⟩ := List.mem_filter.mp new
    exact ⟨(filed.entered.live e).trans (app.present_newAddresses news e (filed.addresses.mem_iff.mp listed)),
      of_decide_eq_true accnt⟩

theorem HistoryOwned.same (owned : app.HistoryOwned) (history : app'.view.history = app.view.history)
    (execs : app'.execs = app.execs) : app'.HistoryOwned := by
  intro a e member
  rw [show (app'.sess a).execs = (app.sess a).execs from congrFun history a] at member
  rw [App.exec, execs]
  exact owned a e member

theorem HistoryOwned.step (inv : app.Inv) (owned : app.HistoryOwned) (stepped : app.step op = some app') :
    app'.HistoryOwned := by
  cases (step_filing inv stepped).cases with
  | inl idle => exact owned.same idle.history idle.execs
  | inr reported =>
    obtain ⟨news, es, m, filed, -⟩ := reported
    exact owned.filed filed

/-- What holds in every state of the server. -/
structure Settled (app : App) : Prop where
  inv : app.Inv
  trades : app.TradesSound
  history : app.HistoryOwned

theorem Settled.make (capacity maxExecs : Nat) : (App.make capacity maxExecs).Settled where
  inv := .make capacity maxExecs
  trades := tradesSound_make capacity maxExecs
  history _ _ member := by cases member

theorem Settled.step (settled : app.Settled) (stepped : app.step op = some app') : app'.Settled where
  inv := settled.inv.step stepped
  trades := settled.trades.step settled.inv stepped
  history := settled.history.step settled.inv stepped

/-- All that there is to show of an account is its own. -/
theorem Settled.account_of (settled : app.Settled) : (RestApp.account app a).Of (· = a) where
  orders o member := by
    obtain ⟨entry, listed, rfl⟩ := List.mem_map.mp member
    exact (settled.inv.find_order.mp (OrdMap.mem_entries.mp listed)).2.1
  execs x member := by
    obtain ⟨e, listed, rfl⟩ := List.mem_map.mp member
    exact (settled.history a e listed).2
  trades x member := by
    obtain ⟨entry, listed, rfl⟩ := List.mem_map.mp member
    exact (settled.trades.indexed a _ _ (OrdMap.mem_entries.mp listed)).2.1
  posns x member := by
    obtain ⟨entry, -, rfl⟩ := List.mem_map.mp member
    rfl

/-! ## Markets -/

/-- The search of the rows finds what the set of markets finds. -/
theorem find?_markets (app : App) (m : Int) :
    (RestApp.markets app).find? (·.id = m) = (app.markets.find m).map fun _ => RestApp.market app m := by
  cases found : app.markets.find m with
  | none =>
    refine List.find?_eq_none.mpr fun x member here => ?_
    obtain ⟨e, inside, rfl⟩ := List.mem_map.mp member
    have same : e.1 = m := of_decide_eq_true here
    rw [← same, OrdMap.mem_entries.mp inside] at found
    cases found
  | some market =>
    refine List.find?_of_unique ?_ (decide_eq_true rfl) fun y member here => ?_
    · exact List.mem_map_of_mem (OrdMap.mem_entries.mpr found)
    · obtain ⟨e, -, rfl⟩ := List.mem_map.mp member
      have same : e.1 = m := of_decide_eq_true here
      rw [same]

theorem selectMarket_eq (app : App) (instrs : RefData) (symbol : Symbol) (settlDate : Int) :
    RestApp.selectMarkets instrs app (.market symbol settlDate) =
      .given app ((Scope.market symbol settlDate).quotes instrs (RestApp.markets app)) := by
  rw [RestApp.selectMarkets, Scope.quotes]
  cases RestApp.findMarket instrs symbol settlDate with
  | none => rfl
  | some m =>
    simp only [find?_markets]
    cases app.markets.find m <;> rfl

/-- The markets that are printed are a selection of those that there are. -/
theorem selectMarkets_eq (app : App) (instrs : RefData) (scope : Scope) :
    RestApp.selectMarkets instrs app scope = .given app (scope.quotes instrs (RestApp.markets app)) := by
  cases scope with
  | all => rfl
  | instr symbol => rfl
  | market symbol settlDate => exact selectMarket_eq app instrs symbol settlDate
  | ids symbol settlDate ids => exact selectMarket_eq app instrs symbol settlDate

/-! ## Responses -/

/-- The response names orders, executions and a position of the account. -/
structure Owned (app : App) (a : Symbol) (resp : Response) : Prop where
  orders : ∀ p ∈ resp.orders, (app.order p).accnt = a
  execs : ∀ e ∈ resp.execs, (app.exec e).accnt = a
  posn : ∀ ptr ∈ resp.posn, ptr.1 = a

theorem Owned.shown {resp : Response} (owned : Owned app a resp) : (RestApp.response app resp).Of (· = a) where
  orders o member := by
    obtain ⟨p, listed, rfl⟩ := List.mem_map.mp member
    exact owned.orders p listed
  execs x member := by
    obtain ⟨e, listed, rfl⟩ := List.mem_map.mp member
    exact owned.execs e (List.mem_reverse.mp listed)
  trades := List.forall_mem_nil _
  posns x member := by
    obtain ⟨ptr, listed, rfl⟩ := List.mem_map.mp member
    exact owned.posn ptr (Option.mem_toList.mp listed)

theorem created_owned {m now : Int} {o : Order} {s : Side} {v : View} (inv : app.Inv) (new : New app b m o)
    (state : o.state = .new) (opened : Opened app b m o now (app.incomingFills m o) v)
    (commits : Commits b m s now ((app.incomingFills m o).map fun f => f.toMatch app.heap m) v app'.view)
    (ledger : app'.ledger = createdLedger app b m o now (app.incomingFills m o)) :
    Owned app' b (createdResponse app b m (app.incomingFills m o)) := by
  obtain ⟨filed, -, -⟩ := created_filed inv new state opened commits ledger
  have located := filed.located
  have moved := opened.moved commits
  rw [createdResponse_eq]
  refine ⟨List.forall_mem_cons.mpr ⟨moved.fresh.2.accnt.trans new.accnt, fun p member => ?_⟩,
    List.forall_mem_cons.mpr ⟨?_, fun e member => ?_⟩, fun ptr member => ?_⟩
  · -- The makers of the caller.
    obtain ⟨matched, own⟩ := List.mem_filter.mp member
    obtain ⟨f, inside, rfl⟩ := List.mem_map.mp matched
    have present := inv.live.present (mem_fillsOf inside).1
    exact (moved.old (OrdMap.ne_fresh present)).2.accnt.trans (of_decide_eq_true own)
  · obtain ⟨_, _, made⟩ := located.first
    rw [made]
    exact new.accnt
  · rw [← located.filter_trades new.accnt] at member
    exact of_decide_eq_true (List.mem_filter.mp member).2
  · dsimp only at member
    split at member
    next => cases member
    next => cases member; rfl

theorem ChangeDone.owned {m now : Int} {change : Change} {ps : List OrderPtr} {resp : Response} {mq : MsgQueue}
    (done : app.ChangeDone b m change ps now resp mq app') : Owned app' b resp := by
  have own : ∀ p ∈ ps, (app.order p).accnt = b := fun p member => (done.held p member).1.accnt
  obtain ⟨filed, -, -⟩ := changed_filed own done.journaled done.changes done.execs
  have kept : Heap.Kept app.heap app'.heap := done.changes.kept
  rw [done.response]
  refine ⟨fun p member => (kept.same p).accnt.trans (own p member), fun e member => ?_, fun ptr member => by cases member⟩
  exact filed.accnt_of_change own (by rw [length_reportsOf]; exact member)

/-- The trades of a manual trade belong to its account and to its counter-party. -/
theorem Traded.accnts {m : Int} {trade : Exec} {cpty : Symbol} {first : ExecPtr} {second : Option ExecPtr}
    (traded : Traded app b m trade cpty (.ok (first, second) app')) (accnt : trade.accnt = b) (named : trade.cpty = cpty) :
    (app'.exec first).accnt = b ∧ ∀ e ∈ second, cpty.isEmpty = false ∧ (app'.exec e).accnt = cpty := by
  cases traded with
  | oneSided alone journal view matches_ execs_ execs =>
    refine ⟨?_, fun e member => by cases member⟩
    rw [App.exec, execs]
    exact (congrArg (fun x : Exec => x.accnt) (OrdMap.get_put_self _ _ _)).trans accnt
  | twoSided paired journal view matches_ execs_ execs =>
    have found : ∀ (i : Nat) (x : Exec), [trade, trade.opposite (app.view.maxId m + 2)][i]? = some x →
        app'.exec (app.execs.fresh + i) = x := by
      intro i x at_i
      rw [App.exec, execs]
      exact OrdMap.get_of_find (OrdMap.find_allocs_fresh _ _ at_i)
    refine ⟨?_, fun e member => ?_⟩
    · rw [show app.execs.fresh = app.execs.fresh + 0 from rfl, found 0 trade rfl]
      exact accnt
    · cases member
      rw [found 1 _ rfl]
      exact ⟨paired, named⟩

/-- What the reply of a call shows belongs to the accounts that the call acts for. -/
theorem Settled.call_of {result : Reply} (settled : app.Settled) (done : app.call op = .ok result app') :
    (RestApp.reply app' result).Of op.ActsFor := by
  cases op with
  | sess | pop =>
    cases done
    exact Shown.of_nothing
  | createMarket | archiveExec | archiveTrade | archiveTrades =>
    obtain ⟨_, _, rfl⟩ := map_ok done
    exact Shown.of_nothing
  | updateMarket =>
    obtain ⟨_, _, rfl⟩ := map_ok (withMarket_ok done)
    exact Shown.of_nothing
  | createOrder b m ref side lots ticks minLots now busDay =>
    obtain ⟨resp, created, rfl⟩ := map_ok (withMarket_ok done)
    have inv := settled.inv.ensureSess b
    have ended := createOrder_spec inv b m ref side lots ticks minLots now busDay
    rw [created] at ended
    cases ended with
    | committed checked opened commits matches_ execs_ ledger response =>
      rw [response]
      exact (created_owned inv incoming_new rfl opened commits ledger).shown.mono fun a here => here.symm
  | changeOrder b m change target now =>
    obtain ⟨resp, changed, rfl⟩ := map_ok (withMarket_ok done)
    obtain ⟨ps, mq, changed, -⟩ := changeTarget_done (settled.inv.ensureSess b) changed
    exact changed.owned.shown.mono fun a here => here.symm
  | createTrade b m ref side lots ticks liqInd cpty created =>
    obtain ⟨trades, made, rfl⟩ := map_ok (withMarket_ok done)
    have traded := createTrade_spec (settled.inv.ensureSess b) b m ref side lots ticks liqInd cpty created
    rw [made] at traded
    obtain ⟨accnt, second⟩ := traded.accnts rfl rfl
    refine ⟨List.forall_mem_nil _, List.forall_mem_nil _, fun x member => ?_, List.forall_mem_nil _⟩
    obtain ⟨e, listed, rfl⟩ := List.mem_map.mp member
    cases List.mem_cons.mp listed with
    | inl first =>
      rw [first]
      exact .inl accnt.symm
    | inr other =>
      obtain ⟨paired, named⟩ := second e (Option.mem_toList.mp other)
      exact .inr ⟨paired, named.symm⟩

end App

end Swirly
