import Swirly.Lob.App
import Swirly.Lib.Run

/-!
# Operations

The calls that a client of the engine makes.  As in `web/RestApp.cpp`, a call looks up its session, which is made
on first use, and then its market.
-/

namespace Swirly

/-- The overloads of `revise_order` and `cancel_order`. -/
inductive Target where
  | id (id : Int)
  | ref (ref : Bytes)
  | ids (ids : List Int)
  deriving DecidableEq

inductive Op where
  | sess (accnt : Symbol)
  | createMarket (instrId : Int) (instr : Symbol) (settlDay : Int) (state : Nat) (busDay : Int)
  | updateMarket (marketId : Int) (state : Nat)
  | createOrder (accnt : Symbol) (marketId : Int) (ref : Bytes) (side : Side) (lots : Int) (ticks : Int)
      (minLots : Int) (now : Int) (busDay : Int)
  | changeOrder (accnt : Symbol) (marketId : Int) (change : App.Change) (target : Target) (now : Int)
  | createTrade (accnt : Symbol) (marketId : Int) (ref : Bytes) (side : Side) (lots : Int) (ticks : Int)
      (liqInd : LiqInd) (cpty : Symbol) (created : Int)
  | archiveExec (accnt : Symbol) (e : ExecPtr) (now : Int)
  | archiveTrade (accnt : Symbol) (marketId : Int) (id : Int) (now : Int)
  | archiveTrades (accnt : Symbol) (marketId : Int) (ids : List Int) (now : Int)
  /-- The journal thread takes a message. -/
  | pop
  deriving DecidableEq

/-- What a call returns. -/
inductive Reply where
  | done
  | response (resp : Response)
  | trades (trade : ExecPtr) (cptyTrade : Option ExecPtr)
  deriving DecidableEq

namespace Outcome

variable {α β : Type}

def map (f : α → β) : Outcome α → Outcome β
  | ok result app => .ok (f result) app
  | throw e app => .throw e app
  | fault => .fault

/-- The state after a call, unless it faults. -/
def state : Outcome α → Option App
  | ok _ app => some app
  | throw _ app => some app
  | fault => none

/-- What a call returns, and the state then. -/
def returned : Outcome α → Option (α × App)
  | ok result app => some (result, app)
  | throw _ _ => none
  | fault => none

theorem eq_ok {outcome : Outcome α} {result : α} {app : App} (done : outcome.returned = some (result, app)) :
    outcome = .ok result app := by
  cases outcome with
  | ok => cases done; rfl
  | throw => cases done
  | fault => cases done

@[simp] theorem state_map (f : α → β) (outcome : Outcome α) : (outcome.map f).state = outcome.state := by
  cases outcome <;> rfl

end Outcome

namespace App

/-- `App::market` throws if there is no such market. -/
def withMarket {α : Type} (app : App) (marketId : Int) (f : Outcome α) : Outcome α :=
  if (app.markets.find marketId).isSome then f else .throw (.marketNotFound marketId) app

def changeTarget (app : App) (accnt : Symbol) (marketId : Int) (change : Change) (now : Int) :
    Target → Outcome Response
  | .id id => app.changeById accnt marketId change id now
  | .ref ref => app.changeByRef accnt marketId change ref now
  | .ids ids => app.changeByIds accnt marketId change ids now

def call (app : App) : Op → Outcome Reply
  | .sess accnt => .ok .done (app.ensureSess accnt)
  | .createMarket instrId instr settlDay state busDay =>
    (app.createMarket instrId instr settlDay state busDay).map fun _ => .done
  | .updateMarket marketId state => app.withMarket marketId ((app.updateMarket marketId state).map fun _ => .done)
  | .createOrder accnt marketId ref side lots ticks minLots now busDay =>
    let app := app.ensureSess accnt
    app.withMarket marketId ((app.createOrder accnt marketId ref side lots ticks minLots now busDay).map .response)
  | .changeOrder accnt marketId change target now =>
    let app := app.ensureSess accnt
    app.withMarket marketId ((app.changeTarget accnt marketId change now target).map .response)
  | .createTrade accnt marketId ref side lots ticks liqInd cpty created =>
    let app := app.ensureSess accnt
    app.withMarket marketId ((app.createTrade accnt marketId ref side lots ticks liqInd cpty created).map
      fun (trade, cptyTrade) => .trades trade cptyTrade)
  | .archiveExec accnt e now => ((app.ensureSess accnt).archiveExec accnt e now).map fun _ => .done
  | .archiveTrade accnt marketId id now => ((app.ensureSess accnt).archiveTrade accnt marketId id now).map fun _ => .done
  | .archiveTrades accnt marketId ids now =>
    ((app.ensureSess accnt).archiveTrades accnt marketId ids now).map fun _ => .done
  | .pop => .ok .done { app with mq := app.mq.pop }

/-- The state after a call. -/
def step (app : App) (op : Op) : Option App := (app.call op).state

end App

end Swirly
