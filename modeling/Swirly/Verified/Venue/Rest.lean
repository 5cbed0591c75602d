import Swirly.Verified.Accnt.Isolated
import Swirly.Verified.Admission
import Swirly.Verified.Body.Strings
import Swirly.Verified.Http.Numbers
import Swirly.Verified.Venue.Depth

/-!
# The exchange behind the resources

A request is refused, or it asks for reference data or for market data, or it reads an account, or it makes one call.  Which of
these it does is decided before the engine is asked.  The reply is a selection of the markets as the exchange quotes them and of
what it holds of the account, or it is what the exchange answers.
-/

namespace Swirly

open Function

/-! ## What an account has -/

/-- The open orders and the trades of an account in the order of their keys, its last reports, and its positions, of which one
that was never touched may be left out. -/
structure Venue.Account (v : Venue) (a : Symbol) (shown : Shown) : Prop where
  ordersSorted : shown.orders.Pairwise fun o p => o.key < p.key
  orders : ∀ o, o ∈ shown.orders ↔ o.accnt = a ∧ ∃ m s, o ∈ v.book m s
  execs : shown.execs.map Exec.unstamped = v.history a
  tradesSorted : shown.trades.Pairwise fun x y => x.key < y.key
  trades : ∀ x, x ∈ shown.trades.map Exec.unstamped ↔ v.trades a x.key = some x
  posnsSorted : shown.posns.Pairwise fun x y => x.marketId < y.marketId
  posns : ∀ x ∈ shown.posns, x.accnt = a ∧ x.posn = v.posn a x.marketId ∧
    ∃ state, v.terms x.marketId = some (x.instr, x.settlDay, state)
  held : ∀ m, v.posn a m ≠ .make → ∃ x ∈ shown.posns, x.marketId = m

/-- The rows of a scope, which are one row when it names ids. -/
def Scope.pick {α : Type} (instrs : RefData) (request : α → Request) (missing : Int → Exception) (rows : List α) :
    Scope → Except Exception (List α)
  | .all => .ok rows
  | .instr symbol => .ok (rows.filter fun x => (request x).instr = symbol)
  | .market symbol settlDate =>
    match RestApp.findMarket instrs symbol settlDate with
    | none => .error (RestServ.instrNotFound symbol)
    | some m => .ok (rows.filter fun x => (request x).marketId = m)
  | .ids symbol settlDate named =>
    match RestApp.findMarket instrs symbol settlDate with
    | none => .error (RestServ.instrNotFound symbol)
    | some m =>
      match rows.find? fun x => (request x).key = idKey m (named.headD 0) with
      | none => .error (missing (named.headD 0))
      | some x => .ok [x]

/-- The positions of a scope, which are one position when it names a market. -/
def Scope.pickPosns (instrs : RefData) (rows : List ShownPosn) : Scope → Except Exception (List ShownPosn)
  | .all => .ok rows
  | .instr symbol => .ok (rows.filter (·.instr = symbol))
  | .market symbol settlDate | .ids symbol settlDate _ =>
    match RestApp.findMarket instrs symbol settlDate with
    | none => .error (RestServ.instrNotFound symbol)
    | some m =>
      match rows.find? (·.marketId = m) with
      | none => .error (RestApp.posnNotFound instrs symbol settlDate)
      | some x => .ok [x]

/-- What is asked of an account. -/
inductive Reading where
  | sess (es : List Entity) (page : Page)
  | orders (scope : Scope)
  | execs (page : Page)
  | trades (scope : Scope)
  | posns (scope : Scope)
  deriving DecidableEq

def Reading.of (instrs : RefData) (markets : List ShownMarket) (account : Shown) : Reading → Except Exception Shown
  | sess es page =>
    .ok
      { markets := if .market ∈ es then markets else []
        orders := if .order ∈ es then account.orders else []
        execs := if .exec ∈ es then page.rows account.execs else []
        trades := if .trade ∈ es then account.trades else []
        posns := if .posn ∈ es then account.posns else [] }
  | orders scope =>
    (scope.pick instrs Order.toRequest .orderNotFound account.orders).map fun orders => { Shown.nothing with orders }
  | execs page => .ok { Shown.nothing with execs := page.rows account.execs }
  | trades scope =>
    (scope.pick instrs Exec.toRequest .tradeNotFound account.trades).map fun trades => { Shown.nothing with trades }
  | posns scope => (scope.pickPosns instrs account.posns).map fun posns => { Shown.nothing with posns }

/-! ## What is told -/

/-- A reply without the stamps of its executions, and of its markets the ids. -/
structure Venue.Told where
  markets : List Int
  orders : List Order
  execs : List Exec
  trades : List Exec
  posns : List (PosnPtr × Posn)
  deriving DecidableEq

def Shown.told (shown : Shown) : Venue.Told :=
  { markets := shown.markets.map fun x => x.id
    orders := shown.orders
    execs := shown.execs.map Exec.unstamped
    trades := shown.trades.map Exec.unstamped
    posns := shown.posns.map fun x => ((x.accnt, x.marketId), x.posn) }

namespace Venue.Call

/-- Whose position an answer tells. -/
def holder : Call → PosnPtr
  | createOrder a m .. => (a, m)
  | _ => default

/-- The market that is opened or that gets another state. -/
def opened : Call → Option Int
  | createMarket instrId _ settlDay .. => some (toMarketId instrId settlDay)
  | updateMarket m _ => some m
  | _ => none

def told (c : Call) : Answer → Told
  | .done => { markets := c.opened.toList, orders := [], execs := [], trades := [], posns := [] }
  | .response marketId orders execs posn =>
    { markets := marketId.toList, orders, execs := execs.reverse, trades := []
      posns := posn.toList.map fun posn => (c.holder, posn) }
  | .trades trade cptyTrade => { markets := [], orders := [], execs := [], trades := trade :: cptyTrade.toList, posns := [] }

end Venue.Call

/-! ## What a request comes to -/

inductive Want where
  /-- Reference data. -/
  | common
  /-- The markets of a scope. -/
  | quotes (scope : Scope)
  | read (a : Symbol) (reading : Reading)
  | call (c : Venue.Call)
  deriving DecidableEq

namespace RestServ

variable (env : Env) (r : HttpRequest)

/-- A request whose fields are checked. -/
def checked (required optional : List Field) (want : Except Exception Want) : Except Exception Want :=
  if r.body.valid required optional then want else .error invalidFields

/-- A call that needs its instrument. -/
def named (instr : Symbol) (call : Int → Venue.Call) : Except Exception Want :=
  match env.instrs.find instr with
  | none => .error (instrNotFound instr)
  | some id => .ok (.call (call id))

/-- A body with the field has a side. -/
def sided (call : Side → Except Exception Want) : Except Exception Want :=
  match r.body.side with
  | none => .error invalidFields
  | some side => call side

/-- One of the reference data must be there. -/
def known (has : Symbol → Bool) (missing : Symbol → Exception) : Option Symbol → Except Exception Want
  | none => .ok .common
  | some symbol => if has symbol then .ok .common else .error (missing symbol)

def want (now : Int) : Route → Except Exception Want
  | .getRefData es => .ok (if .market ∈ es then .quotes .all else .common)
  | .getAsset symbol => known env.instrs.asset RestApp.assetNotFound symbol
  | .getInstr symbol => known (fun symbol => (env.instrs.find symbol).isSome) RestApp.instrNotFound symbol
  | .getMarket scope => .ok (.quotes scope)
  | .getSess es => (getTrader r).map fun accnt => .read (.assign accnt) (.sess es (.parseQuery (env.query r.url.data)))
  | .getOrder scope => (getTrader r).map fun accnt => .read (.assign accnt) (.orders scope)
  | .getExec => (getTrader r).map fun accnt => .read (.assign accnt) (.execs (.parseQuery (env.query r.url.data)))
  | .getTrade scope => (getTrader r).map fun accnt => .read (.assign accnt) (.trades scope)
  | .getPosn scope => (getTrader r).map fun accnt => .read (.assign accnt) (.posns scope)
  | .postMarket path =>
    (getAdmin r).bind fun _ =>
      checked r path.marketRequired OrderPath.marketOptional (named env (path.terms r.body).1 fun id =>
        .createMarket id (path.terms r.body).1 (maybeIsoToJd (path.terms r.body).2) r.body.state.toNat (env.busDay now))
  | .putMarket instr settlDate =>
    (getAdmin r).bind fun _ =>
      checked r [.state] [] (named env (.assign instr) fun id =>
        .updateMarket (toMarketId id (maybeIsoToJd settlDate)) r.body.state.toNat)
  | .postOrder path =>
    (getTrader r).bind fun accnt =>
      checked r path.required OrderPath.optional (sided r fun side => named env (path.terms r.body).1 fun id =>
        .createOrder (.assign accnt) (toMarketId id (maybeIsoToJd (path.terms r.body).2)) r.body.ref side r.body.lots
          r.body.ticks r.body.minLots now (env.busDay now))
  | .putOrder instr settlDate ids =>
    (getTrader r).bind fun accnt =>
      checked r [.lots] [] (named env (.assign instr) fun id =>
        .changeOrder (.assign accnt) (toMarketId id (maybeIsoToJd settlDate))
          (if 0 < r.body.lots then App.Change.revise r.body.lots else .cancel)
          (match ids with
            | [id] => .id id
            | ids => .ids ids) now)
  | .postTrade path =>
    (getAdmin r).bind fun _ =>
      checked r path.tradeRequired OrderPath.tradeOptional (sided r fun side => named env (path.terms r.body).1 fun id =>
        .createTrade r.body.getAccnt (toMarketId id (maybeIsoToJd (path.terms r.body).2)) r.body.ref side r.body.lots
          r.body.ticks r.body.liqInd r.body.getCpty now)
  | .deleteTrade instr settlDate ids =>
    (getTrader r).bind fun accnt =>
      named env (.assign instr) fun id => .archiveTrades (.assign accnt) (toMarketId id (maybeIsoToJd settlDate)) ids now

/-- What a request comes to at the time of the clock. -/
def wanted (clock : Int) : Except Exception Want :=
  if r.isPartial then .error incompleteBody else (route env r).bind (want env r (getTime clock r))

end RestServ

/-- The reply to a request, and the exchange afterwards. -/
inductive Venue.Replies (env : Env) (v : Venue) : Except Exception Want → Except Exception Shown → Venue → Prop
  | refused {e : Exception} : Replies env v (.error e) (.error e) v
  | common : Replies env v (.ok .common) (.ok .nothing) v
  | quotes {scope : Scope} {markets : List ShownMarket} (data : v.MarketData markets) :
      Replies env v (.ok (.quotes scope)) ((scope.quotes env.instrs markets).map fun markets => { Shown.nothing with markets }) v
  | read {a : Symbol} {reading : Reading} {markets : List ShownMarket} {account : Shown} (data : v.MarketData markets)
      (holds : v.Account a account) : Replies env v (.ok (.read a reading)) (reading.of env.instrs markets account) v
  | called {c : Venue.Call} {result : Except Exception Shown} (told : result.map Shown.told = (v.call c).1.map c.told)
      (quotes : ∀ shown, result = .ok shown → ∀ x ∈ shown.markets, (v.call c).2.Quotes x) :
      Replies env v (.ok (.call c)) result (v.call c).2

namespace Event

/-- The call of an event, if it makes one. -/
def call (env : Env) : Event → Option Venue.Call
  | request clock r =>
    match RestServ.wanted env r clock with
    | .ok (.call c) => some c
    | _ => none
  | pop => some .pop

/-- The body of a request is read from bytes, and a list of ids in its path names something and nothing twice. -/
def Fine (env : Env) : Event → Prop
  | request _ r => (∃ text : Bytes, r.body = text.foldl RestBody.step .reset) ∧
      ∀ route ids, RestServ.route env r = .ok route → route.ids = some ids → ids ≠ [] ∧ ids.Nodup
  | pop => True

end Event

/-! ## Reading -/

namespace App

variable {app app' : App} {a : Symbol}

/-- Positions are in markets that exist. -/
def PosnsListed (app : App) : Prop := ∀ a n, app.HasPosn a n → (app.listing n).isSome

/-- A market stays. -/
theorem listed_step {op : Op} {n : Int} (inv : app.Inv) (stepped : app.step op = some app') (listed : (app.listing n).isSome) :
    (app'.listing n).isSome := by
  cases step_lists inv stepped with
  | kept listing posn => rwa [listing]
  | created creates returns listing posn =>
    rw [listing, update_apply]
    split
    next => rfl
    next => exact listed

theorem PosnsListed.step {op : Op} (listed : app.PosnsListed) (inv : app.Inv) (stepped : app.step op = some app') :
    app'.PosnsListed := by
  intro a n has
  have before : app.HasPosn a n ∨ (app.listing n).isSome := by
    cases step_lists inv stepped with
    | kept listing posn => exact posn a n has
    | created creates returns listing posn => exact .inl (posn a n has)
  exact listed_step inv stepped (before.elim (listed a n) id)

theorem terms_of_listed {n : Int} (listed : (app.listing n).isSome) :
    ∃ state, app.terms n = some ((app.market n).instr, (app.market n).settlDay, state) := by
  rw [listing, Option.isSome_map] at listed
  obtain ⟨market, found⟩ := Option.isSome_iff_exists.mp listed
  have stored : app.market n = market := OrdMap.get_of_find found
  exact ⟨market.state, by rw [terms, found, stored]; rfl⟩

/-- What the engine has to show of an account is what the exchange holds of it. -/
theorem account_venue (settled : app.Settled) (listed : app.PosnsListed) (a : Symbol) :
    app.venue.Account a (RestApp.account app a) where
  ordersSorted := by
    refine List.pairwise_map.mpr ((app.sess a).orders.sorted.imp_of_mem fun {x y} memberX memberY less => ?_)
    have keyX := (settled.inv.find_order.mp (OrdMap.mem_entries.mp memberX)).2.2.1
    have keyY := (settled.inv.find_order.mp (OrdMap.mem_entries.mp memberY)).2.2.1
    show (app.order x.2).key < (app.order y.2).key
    rwa [keyX, keyY]
  orders o := by
    constructor
    · intro member
      obtain ⟨entry, inside, rfl⟩ := List.mem_map.mp member
      obtain ⟨accnt, -, booked⟩ := settled.inv.live.find_iff.mp (OrdMap.mem_entries.mp inside)
      exact ⟨accnt, _, _, List.mem_map_of_mem booked⟩
    · rintro ⟨accnt, m, s, member⟩
      obtain ⟨p, booked, rfl⟩ := List.mem_map.mp member
      have home := settled.inv.live.home booked
      have found := settled.inv.live.find_iff.mpr ⟨accnt, rfl, by rw [home.1, home.2]; exact booked⟩
      exact List.mem_map.mpr ⟨_, OrdMap.mem_entries.mpr found, rfl⟩
  execs := by
    show ((app.sess a).execs.map app.exec).map Exec.unstamped = (app.sess a).execs.map app.view.report
    rw [List.map_map]
    exact List.map_congr_left fun e _ => (report_view e).symm
  tradesSorted := by
    refine List.pairwise_map.mpr ((app.sess a).trades.sorted.imp_of_mem fun {x y} memberX memberY less => ?_)
    have keyX := (settled.trades.indexed a _ _ (OrdMap.mem_entries.mp memberX)).2.2
    have keyY := (settled.trades.indexed a _ _ (OrdMap.mem_entries.mp memberY)).2.2
    rwa [keyX, keyY]
  trades x := by
    constructor
    · intro member
      obtain ⟨stamped, shown, rfl⟩ := List.mem_map.mp member
      obtain ⟨entry, inside, rfl⟩ := List.mem_map.mp shown
      have found := OrdMap.mem_entries.mp inside
      have key := (settled.trades.indexed a _ _ found).2.2
      show ((app.sess a).trades.find (app.exec entry.2).key).map app.view.report = _
      rw [key, found, Option.map_some, report_view]
    · intro filed
      obtain ⟨e, found, rfl⟩ := Option.map_eq_some_iff.mp filed
      rw [report_view]
      exact List.mem_map_of_mem (List.mem_map.mpr ⟨_, OrdMap.mem_entries.mpr found, rfl⟩)
  posnsSorted := List.pairwise_map.mpr (app.sess a).posns.sorted
  posns x member := by
    obtain ⟨entry, inside, rfl⟩ := List.mem_map.mp member
    have found := OrdMap.mem_entries.mp inside
    have has : app.HasPosn a entry.1 := by rw [HasPosn, found]; rfl
    exact ⟨rfl, (OrdMap.get_of_find found).symm, terms_of_listed (listed a entry.1 has)⟩
  held m touched := by
    cases found : (app.sess a).posns.find m with
    | none =>
      refine absurd ?_ touched
      show (app.sess a).posns.get m = _
      rw [OrdMap.get, found]
      rfl
    | some posn => exact ⟨_, List.mem_map_of_mem (OrdMap.mem_entries.mpr found), rfl⟩

end App

/-! ## Requests -/

namespace Outcome

variable {α : Type} {app : App}

/-- How a call ends, and the exchange then. -/
def ends : Outcome α → Option (Except Exception α × Venue)
  | ok result app => some (.ok result, app.venue)
  | throw e app => some (.error e, app.venue)
  | fault => none

theorem ends_given (result : Except Exception α) : (given app result).ends = some (result, app.venue) := by
  cases result <;> rfl

end Outcome

namespace RestServ

variable {env : Env} {app app' : App} {r : HttpRequest} {a : Symbol} {route : Route} {now clock : Int}

/-- What the server does of what is wanted. -/
inductive Comes (env : Env) (app : App) : Except Exception Want → Outcome Shown → Prop
  | refused {e : Exception} : Comes env app (.error e) (.throw e app)
  | unknown {e : Exception} {a : Symbol} : Comes env app (.error e) (.throw e (app.ensureSess a))
  | common : Comes env app (.ok .common) (.ok .nothing app)
  | quotes {scope : Scope} : Comes env app (.ok (.quotes scope))
      (.given app ((scope.quotes env.instrs (RestApp.markets app)).map fun markets => { Shown.nothing with markets }))
  | read {a : Symbol} {reading : Reading} : Comes env app (.ok (.read a reading))
      (.given (app.ensureSess a) (reading.of env.instrs (RestApp.markets app) (RestApp.account app a)))
  | called {c : Venue.Call} (proper : ∀ v, c.Proper v) (plain : c.opened = none) :
      Comes env app (.ok (.call c)) (RestApp.print (app.call c.op))
  | opened {c : Venue.Call} {m : Int} (proper : ∀ v, c.Proper v) (opens : c.opened = some m) :
      Comes env app (.ok (.call c)) (RestApp.printMarket m (app.call c.op))

theorem select_pick {α : Type} (instrs : RefData) (app : App) (request : α → Request) (missing : Int → Exception) (rows : List α)
    {scope : Scope} (named : scope.idList ≠ some []) :
    RestApp.select instrs app request missing rows scope = .given app (scope.pick instrs request missing rows) := by
  cases scope with
  | all => rfl
  | instr symbol => rfl
  | market symbol settlDate =>
    rw [RestApp.select, Scope.pick]
    cases RestApp.findMarket instrs symbol settlDate <;> rfl
  | ids symbol settlDate ids =>
    cases ids with
    | nil => exact absurd rfl named
    | cons id ids =>
      rw [RestApp.select, Scope.pick]
      cases RestApp.findMarket instrs symbol settlDate with
      | none => rfl
      | some m =>
        have first : (rows.find? fun x => (request x).key = idKey m ((id :: ids).headD 0)) =
            rows.find? fun x => (request x).key = idKey m id := rfl
        dsimp only
        rw [first]
        cases rows.find? fun x => (request x).key = idKey m id <;> rfl

theorem account_rows (app : App) (a : Symbol) : RestApp.orders (app.ensureSess a) a = RestApp.orders app a ∧
    RestApp.execs (app.ensureSess a) a = RestApp.execs app a ∧ RestApp.trades (app.ensureSess a) a = RestApp.trades app a ∧
    RestApp.posns (app.ensureSess a) a = RestApp.posns app a := by
  have same : RestApp.account (app.ensureSess a) a = RestApp.account app a := account_ensureSess a
  rw [RestApp.account, RestApp.account, Shown.mk.injEq] at same
  exact same.2

theorem getSess_of (app : App) (a : Symbol) (es : List Entity) (page : Page) :
    RestApp.getSess app a es page = 
      .given (app.ensureSess a) ((Reading.sess es page).of env.instrs (RestApp.markets app) (RestApp.account app a)) := by
  obtain ⟨orders, execs, trades, posns⟩ := account_rows app a
  simp only [RestApp.getSess, orders, execs, trades, posns]
  rfl

theorem getOrder_of (app : App) (a : Symbol) {scope : Scope} (named : scope.idList ≠ some []) :
    RestApp.getOrder env.instrs app a scope =
      .given (app.ensureSess a) ((Reading.orders scope).of env.instrs (RestApp.markets app) (RestApp.account app a)) := by
  obtain ⟨orders, -⟩ := account_rows app a
  simp only [RestApp.getOrder, orders, select_pick _ _ _ _ _ named, Outcome.map_given]
  rfl

theorem getExec_of (app : App) (a : Symbol) (page : Page) :
    RestApp.getExec app a page =
      .given (app.ensureSess a) ((Reading.execs page).of env.instrs (RestApp.markets app) (RestApp.account app a)) := by
  obtain ⟨-, execs, -⟩ := account_rows app a
  simp only [RestApp.getExec, execs]
  rfl

theorem getTrade_of (app : App) (a : Symbol) {scope : Scope} (named : scope.idList ≠ some []) :
    RestApp.getTrade env.instrs app a scope =
      .given (app.ensureSess a) ((Reading.trades scope).of env.instrs (RestApp.markets app) (RestApp.account app a)) := by
  obtain ⟨-, -, trades, -⟩ := account_rows app a
  simp only [RestApp.getTrade, trades, select_pick _ _ _ _ _ named, Outcome.map_given]
  rfl

theorem getPosn_of (app : App) (a : Symbol) (scope : Scope) :
    RestApp.getPosn env.instrs app a scope =
      .given (app.ensureSess a) ((Reading.posns scope).of env.instrs (RestApp.markets app) (RestApp.account app a)) := by
  obtain ⟨-, -, -, posns⟩ := account_rows app a
  cases scope with
  | all => simp only [RestApp.getPosn, posns]; rfl
  | instr symbol => simp only [RestApp.getPosn, posns]; rfl
  | market symbol settlDate | ids symbol settlDate _ =>
    simp only [RestApp.getPosn, posns, Reading.of, Scope.pickPosns]
    cases RestApp.findMarket env.instrs symbol settlDate with
    | none => rfl
    | some m =>
      dsimp only [RestApp.account]
      cases (RestApp.posns app a).find? (·.marketId = m) <;> rfl

/-- A request with a permission. -/
theorem Comes.permitted {bit : Nat} {missing : Exception} {serve : Bytes → Outcome Shown} {want : Bytes → Except Exception Want}
    (comes : ∀ accnt, Comes env app (want accnt) (serve accnt)) :
    Comes env app ((getPermitted bit missing r).bind want) (withAccnt app (getPermitted bit missing r) serve) := by
  cases getPermitted bit missing r with
  | error e => exact .refused
  | ok accnt => exact comes accnt

theorem Comes.checked {required optional : List Field} {serve : Outcome Shown} {want : Except Exception Want}
    (comes : r.body.valid required optional → Comes env app want serve) :
    Comes env app (RestServ.checked r required optional want) (withFields app r.body required optional serve) := by
  rw [RestServ.checked, withFields]
  split
  next valid => exact comes valid
  next => exact .refused

theorem side_of_trade {path : OrderPath} (valid : r.body.valid path.tradeRequired OrderPath.tradeOptional) :
    .side ∈ r.body.fields := by
  have required : .side ∈ path.tradeRequired := by cases path <;> simp [OrderPath.tradeRequired]
  rw [RestBody.valid, Bool.and_eq_true, List.all_eq_true] at valid
  exact of_decide_eq_true (valid.1 _ required)

theorem Comes.known (has : Symbol → Bool) (missing : Symbol → Exception) (symbol : Option Symbol) :
    Comes env app (RestServ.known has missing symbol) (RestApp.getBySymbol app has missing symbol) := by
  cases symbol with
  | none => exact .common
  | some symbol =>
    rw [RestServ.known, RestApp.getBySymbol]
    split
    next => exact .common
    next => exact .refused

theorem serve_comes (sided : r.body.Sided) (bounded : r.body.Bounded) (named : route.ids ≠ some [])
    (nodup : ∀ ids ∈ route.ids, ids.Nodup) :
    Comes env app (want env r now route) (serve env app r now route) := by
  cases route with
  | getRefData es =>
    rw [want, serve, RestApp.getRefData]
    split
    next => exact .quotes
    next => exact .common
  | getAsset symbol => exact .known _ _ _
  | getInstr symbol => exact .known _ _ _
  | getMarket scope =>
    rw [want, serve, App.selectMarkets_eq, Outcome.map_given]
    exact .quotes
  | getSess es =>
    refine .permitted fun accnt => ?_
    rw [getSess_of]
    exact .read
  | getOrder scope =>
    refine .permitted fun accnt => ?_
    rw [getOrder_of _ _ named]
    exact .read
  | getExec =>
    refine .permitted fun accnt => ?_
    rw [getExec_of]
    exact .read
  | getTrade scope =>
    refine .permitted fun accnt => ?_
    rw [getTrade_of _ _ named]
    exact .read
  | getPosn scope =>
    refine .permitted fun accnt => ?_
    rw [getPosn_of]
    exact .read
  | postMarket path =>
    refine .permitted fun _ => .checked fun _ => ?_
    rw [RestServ.named, RestApp.postMarket, RestApp.withInstr]
    cases env.instrs.find (path.terms r.body).1 with
    | none => exact .refused
    | some id => exact .opened (fun _ => trivial) rfl
  | putMarket instr settlDate =>
    refine .permitted fun _ => .checked fun _ => ?_
    rw [RestServ.named, RestApp.putMarket, RestApp.withInstr]
    cases env.instrs.find (.assign instr) with
    | none => exact .refused
    | some id => exact .opened (fun _ => trivial) rfl
  | postOrder path =>
    refine .permitted fun accnt => ?_
    rw [orderRequest, RestServ.checked]
    split
    next valid =>
      -- The side is among the required fields.
      obtain ⟨side, known⟩ := Option.isSome_iff_exists.mp (sided.side (side_of_valid valid))
      rw [RestServ.sided, known]
      dsimp only
      rw [RestServ.named, postOrder]
      cases env.instrs.find (path.terms r.body).1 with
      | none => exact .unknown
      | some id => exact .called (fun _ => bounded .ref maxRef rfl) rfl
    next => exact .refused
  | putOrder instr settlDate ids =>
    refine .permitted fun accnt => .checked fun _ => ?_
    unfold RestApp.putOrder RestApp.withInstr RestServ.named
    cases env.instrs.find (.assign instr) with
    | none => exact .unknown
    | some id =>
      refine .called (fun _ => ?_) rfl
      -- A single id makes the call for one order, which is always proper.
      cases ids with
      | nil => exact List.nodup_nil
      | cons id ids =>
        cases ids with
        | nil => trivial
        | cons => exact nodup _ rfl
  | postTrade path =>
    refine .permitted fun _ => .checked fun valid => ?_
    obtain ⟨side, known⟩ := Option.isSome_iff_exists.mp (sided.side (side_of_trade valid))
    rw [RestServ.sided, RestServ.postTrade, known]
    dsimp only
    rw [RestServ.named, RestApp.postTrade, RestApp.withInstr]
    cases env.instrs.find (path.terms r.body).1 with
    | none => exact .unknown
    | some id => exact .called (fun _ => trivial) rfl
  | deleteTrade instr settlDate ids =>
    refine .permitted fun accnt => ?_
    rw [RestServ.named, RestApp.deleteTrade, RestApp.withInstr]
    cases env.instrs.find (.assign instr) with
    | none => exact .unknown
    | some id => exact .called (fun _ => nodup _ rfl) rfl

end RestServ

namespace App

variable {app app' : App} {c : Venue.Call}

/-- A response tells the position of the order that is created. -/
theorem posn_of_call (inv : app.Inv) {resp : Response} (done : app.call c.op = .ok (.response resp) app') :
    ∀ ptr ∈ resp.posn, ptr = c.holder := by
  cases c with
  | sess | pop => cases done
  | createMarket | archiveTrade | archiveTrades =>
    obtain ⟨_, _, differ⟩ := map_ok done
    cases differ
  | updateMarket =>
    obtain ⟨_, _, differ⟩ := map_ok (withMarket_ok done)
    cases differ
  | createTrade =>
    obtain ⟨_, _, differ⟩ := map_ok (withMarket_ok done)
    cases differ
  | createOrder a m ref side lots ticks minLots now busDay =>
    obtain ⟨_, created, same⟩ := map_ok (withMarket_ok done)
    cases same
    have ended := createOrder_spec (inv.ensureSess a) a m ref side lots ticks minLots now busDay
    rw [created] at ended
    cases ended with
    | committed checked opened commits matches_ execs_ ledger response =>
      rw [response, createdResponse_eq]
      intro ptr member
      dsimp only at member
      split at member
      next => cases member
      next => cases member; rfl
  | changeOrder a m change target now =>
    obtain ⟨_, changed, same⟩ := map_ok (withMarket_ok done)
    cases same
    obtain ⟨ps, mq, changed, -⟩ := changeTarget_done (inv.ensureSess a) changed
    rw [changed.response]
    exact fun ptr member => by cases member

theorem listed_of_withMarket {α : Type} {outcome : Outcome α} {result : α} {m : Int}
    (done : app.withMarket m outcome = .ok result app') : (app.listing m).isSome := by
  rw [withMarket] at done
  split at done
  next found => rwa [listing, Option.isSome_map]
  next => cases done

/-- A response tells a market that there is. -/
theorem market_of_call (inv : app.Inv) {resp : Response} (done : app.call c.op = .ok (.response resp) app') :
    ∀ m ∈ resp.market, (app.listing m).isSome := by
  cases c with
  | sess | pop => cases done
  | createMarket | archiveTrade | archiveTrades =>
    obtain ⟨_, _, differ⟩ := map_ok done
    cases differ
  | updateMarket =>
    obtain ⟨_, _, differ⟩ := map_ok (withMarket_ok done)
    cases differ
  | createTrade =>
    obtain ⟨_, _, differ⟩ := map_ok (withMarket_ok done)
    cases differ
  | createOrder a m ref side lots ticks minLots now busDay =>
    have listed : ((app.ensureSess a).listing m).isSome := listed_of_withMarket done
    obtain ⟨_, created, same⟩ := map_ok (withMarket_ok done)
    cases same
    have ended := createOrder_spec (inv.ensureSess a) a m ref side lots ticks minLots now busDay
    rw [created] at ended
    cases ended with
    | committed checked opened commits matches_ execs_ ledger response =>
      rw [response, createdResponse_eq]
      rintro n here
      cases here
      exact listed
  | changeOrder a m change target now =>
    have listed : ((app.ensureSess a).listing m).isSome := listed_of_withMarket done
    obtain ⟨_, changed, same⟩ := map_ok (withMarket_ok done)
    cases same
    obtain ⟨ps, mq, changed, -⟩ := changeTarget_done (inv.ensureSess a) changed
    rw [changed.response]
    rintro n here
    cases here
    exact listed

/-- The market that a call opens is there afterwards. -/
theorem opened_of_call (inv : app.Inv) {m : Int} (opens : c.opened = some m) {reply : Reply} (done : app.call c.op = .ok reply app') :
    reply = .done ∧ (app'.listing m).isSome := by
  have stepped : app.step c.op = some app' := by
    rw [App.step, done]
    rfl
  cases c with
  | createMarket instrId instr settlDay state busDay =>
    cases opens
    obtain ⟨_, made, rfl⟩ := map_ok done
    obtain ⟨e, thrown⟩ | ⟨mq, created⟩ := createMarket_cases app instrId instr settlDay state busDay
    · rw [thrown] at made
      cases made
    · rw [created] at made
      cases made
      refine ⟨rfl, ?_⟩
      rw [listing, Option.isSome_map]
      exact Option.isSome_of_eq_some (OrdMap.find_put_self _ _ _)
  | updateMarket m state =>
    cases opens
    have listed : (app.listing m).isSome := listed_of_withMarket done
    obtain ⟨_, made, rfl⟩ := map_ok (withMarket_ok done)
    exact ⟨rfl, listed_step inv stepped listed⟩
  | sess | createOrder | changeOrder | createTrade | archiveTrade | archiveTrades | pop => cases opens

/-- A market that there is is shown as the exchange quotes it. -/
theorem quotes_listed (settled : app.Settled) {m : Int} (listed : (app.listing m).isSome) :
    app.venue.Quotes (RestApp.market app m) := by
  rw [listing, Option.isSome_map] at listed
  obtain ⟨market, found⟩ := Option.isSome_iff_exists.mp listed
  exact quotes_market settled found

theorem quotes_reply (settled : app.Settled) {reply : Reply} (done : app.call c.op = .ok reply app') :
    ∀ x ∈ (RestApp.reply app' reply).markets, app'.venue.Quotes x := by
  have stepped : app.step c.op = some app' := by
    rw [App.step, done]
    rfl
  cases reply with
  | done => exact List.forall_mem_nil _
  | trades => exact List.forall_mem_nil _
  | response resp =>
    intro x member
    obtain ⟨m, here, rfl⟩ := List.mem_map.mp member
    have listed := market_of_call settled.inv done m (Option.mem_toList.mp here)
    exact quotes_listed (settled.step stepped) (listed_step settled.inv stepped listed)

/-- The reply shows the answer of the exchange. -/
theorem told_reply (inv : app.Inv) (plain : c.opened = none) {reply : Reply} (done : app.call c.op = .ok reply app') :
    (RestApp.reply app' reply).told = c.told (app'.answer reply) := by
  have reports : ∀ es : List ExecPtr, (es.map app'.exec).map Exec.unstamped = es.map app'.view.report := fun es => by
    rw [List.map_map]
    exact List.map_congr_left fun e _ => (report_view e).symm
  cases reply with
  | done =>
    rw [answer, Venue.Call.told, plain]
    rfl
  | trades trade cptyTrade =>
    rw [RestApp.reply, answer, Venue.Call.told, Shown.told]
    simp only [reports, List.map_cons, Shown.nothing, List.map_nil, report_view]
    cases cptyTrade <;> rfl
  | response resp =>
    have holder := posn_of_call inv done
    have market : (resp.market.toList.map (RestApp.market app')).map (fun x => x.id) = resp.market.toList := by
      rw [List.map_map]
      exact List.map_id _
    rw [RestApp.reply, RestApp.response, answer, Venue.Call.told, Shown.told]
    simp only [reports, market, List.map_reverse, List.map_nil]
    cases posn : resp.posn with
    | none => rfl
    | some ptr =>
      obtain rfl := holder ptr posn
      rfl

/-- What is printed of a call is what the exchange answers, with the markets as it quotes them then. -/
theorem call_told (settled : app.Settled) (filed : app.view.RefsFiled) (proper : c.Proper app.venue) {shown : App → Reply → Shown}
    (told : ∀ reply last, app.call c.op = .ok reply last → (shown last reply).told = c.told (last.answer reply))
    (quotes : ∀ reply last, app.call c.op = .ok reply last → ∀ x ∈ (shown last reply).markets, last.venue.Quotes x) :
    ∃ result, (RestApp.printAs shown (app.call c.op)).ends = some (result, (app.venue.call c).2) ∧
      result.map Shown.told = (app.venue.call c).1.map c.told ∧
      ∀ s, result = .ok s → ∀ x ∈ s.markets, (app.venue.call c).2.Quotes x := by
  have seen := call_seen settled filed proper
  cases outcome : app.call c.op with
  | ok reply last =>
    rw [outcome] at seen
    have called := Option.some.inj seen
    refine ⟨.ok (shown last reply), ?_, ?_, ?_⟩
    · rw [← called]
      rfl
    · rw [← called, Except.map, told reply last outcome]
      rfl
    · rintro s same
      cases same
      rw [← called]
      exact quotes reply last outcome
  | throw e last =>
    rw [outcome] at seen
    have called := Option.some.inj seen
    refine ⟨.error e, ?_, ?_, fun s same => by cases same⟩
    · rw [← called]
      rfl
    · rw [← called]
      rfl
  | fault =>
    rw [outcome] at seen
    cases seen

/-- What the server relies on between requests. -/
structure Serving (app : App) : Prop where
  settled : app.Settled
  filed : app.view.RefsFiled
  listed : app.PosnsListed

theorem Serving.make (capacity maxExecs : Nat) : (App.make capacity maxExecs).Serving where
  settled := .make capacity maxExecs
  filed := refsFiled_make capacity maxExecs
  listed a n has := by cases has

theorem Serving.call (ready : app.Serving) (proper : c.Proper app.venue) (stepped : app.step c.op = some app') : app'.Serving where
  settled := ready.settled.step stepped
  filed := refsFiled_call ready.settled ready.filed proper stepped
  listed := ready.listed.step ready.settled.inv stepped

theorem Serving.ensureSess (ready : app.Serving) (a : Symbol) : (app.ensureSess a).Serving :=
  ready.call (c := .sess a) trivial rfl

end App

namespace RestServ

variable {env : Env} {app app' : App} {r : HttpRequest} {route : Route} {now clock : Int} {wants : Except Exception Want}
  {outcome : Outcome Shown}

theorem Comes.replies (ready : app.Serving) (comes : Comes env app wants outcome) :
    ∃ result v, outcome.ends = some (result, v) ∧ Venue.Replies env app.venue wants result v := by
  have sess : ∀ a, (app.ensureSess a).venue = app.venue := fun a => App.venue_ensureSess app a
  cases comes with
  | refused => exact ⟨_, _, rfl, .refused⟩
  | unknown => exact ⟨_, _, rfl, sess _ ▸ .refused⟩
  | common => exact ⟨_, _, rfl, .common⟩
  | quotes => exact ⟨_, _, Outcome.ends_given _, .quotes (App.markets_shown ready.settled)⟩
  | @read a reading =>
    refine ⟨_, _, Outcome.ends_given _, ?_⟩
    rw [sess]
    exact .read (App.markets_shown ready.settled) (App.account_venue ready.settled ready.listed a)
  | called proper plain =>
    obtain ⟨result, ends, told, quotes⟩ := App.call_told ready.settled ready.filed (proper _)
      (fun reply last => App.told_reply ready.settled.inv plain) fun reply last => App.quotes_reply ready.settled
    exact ⟨result, _, ends, .called told quotes⟩
  | @opened c m proper opens =>
    obtain ⟨result, ends, told, quotes⟩ := @App.call_told app c ready.settled ready.filed (proper _)
      (fun app _ => { Shown.nothing with markets := [RestApp.market app m] })
      (fun reply last done => by
        obtain ⟨rfl, -⟩ := App.opened_of_call ready.settled.inv opens done
        rw [App.answer, Venue.Call.told, opens]
        rfl)
      (fun reply last done x member => by
        obtain ⟨-, listed⟩ := App.opened_of_call ready.settled.inv opens done
        rw [List.mem_singleton.mp member]
        exact App.quotes_listed (ready.settled.step (by rw [App.step, done]; rfl)) listed)
    exact ⟨result, _, ends, .called told quotes⟩

/-- The calls that are made. -/
def Want.calls : Except Exception Want → List Venue.Call
  | .ok (.call c) => [c]
  | _ => []

theorem Comes.next (ready : app.Serving) (comes : Comes env app wants outcome) :
    ∃ app', outcome.state = some app' ∧ app'.Serving ∧ app'.venue = (app.venue.run (Want.calls wants)).2 := by
  have sess : ∀ a, (app.ensureSess a).venue = app.venue := fun a => App.venue_ensureSess app a
  cases comes with
  | refused => exact ⟨app, rfl, ready, rfl⟩
  | unknown => exact ⟨_, rfl, ready.ensureSess _, sess _⟩
  | common => exact ⟨app, rfl, ready, rfl⟩
  | @quotes scope =>
    refine ⟨app, ?_, ready, rfl⟩
    cases scope.quotes env.instrs (RestApp.markets app) <;> rfl
  | @read a reading =>
    refine ⟨app.ensureSess a, ?_, ready.ensureSess a, sess a⟩
    cases reading.of env.instrs (RestApp.markets app) (RestApp.account app a) <;> rfl
  | @called c proper =>
    obtain ⟨app', stepped, venue⟩ := App.step_seen ready.settled ready.filed (proper app.venue)
    exact ⟨app', (printAs_state _ _).trans stepped, ready.call (proper _) stepped, venue⟩
  | @opened c m proper =>
    obtain ⟨app', stepped, venue⟩ := App.step_seen ready.settled ready.filed (proper app.venue)
    exact ⟨app', (printAs_state _ _).trans stepped, ready.call (proper _) stepped, venue⟩

theorem sided_foldl {body : RestBody} (sided : body.Sided) (text : Bytes) : (text.foldl RestBody.step body).Sided := by
  induction text generalizing body with
  | nil => exact sided
  | cons c text inductionHypothesis => exact inductionHypothesis (sided.step c)

theorem bounded_reset : RestBody.reset.Bounded := by
  intro f max value
  cases f <;> exact Nat.zero_le _

theorem handleRequest_comes (fine : (Event.request clock r).Fine env) :
    Comes env app (wanted env r clock) (handleRequest env app clock r) := by
  obtain ⟨⟨text, body⟩, ids⟩ := fine
  rw [wanted, handleRequest]
  split
  next => exact .refused
  next =>
    cases routed : RestServ.route env r with
    | error e => exact .refused
    | ok route =>
      refine serve_comes ?_ ?_ (fun named => (ids route [] routed named).1 rfl) fun list named => (ids route list routed named).2
      · rw [body]
        exact sided_foldl .reset text
      · rw [body]
        exact RestBody.bounded_foldl bounded_reset text

end RestServ

theorem Event.call_toList (env : Env) (r : HttpRequest) (clock : Int) :
    (Event.call env (.request clock r)).toList = RestServ.Want.calls (RestServ.wanted env r clock) := by
  rw [Event.call]
  cases RestServ.wanted env r clock with
  | error e => rfl
  | ok want => cases want <;> rfl

/-- An event is a call of the exchange, or nothing. -/
theorem Event.step_venue {env : Env} {app : App} {event : Event} (ready : app.Serving) (fine : event.Fine env) :
    ∃ app', event.step env app = some app' ∧ app'.Serving ∧ app'.venue = (app.venue.run (event.call env).toList).2 := by
  cases event with
  | request clock r =>
    rw [call_toList]
    exact (RestServ.handleRequest_comes fine).next ready
  | pop =>
    obtain ⟨app', stepped, venue⟩ := App.step_seen (c := .pop) ready.settled ready.filed trivial
    exact ⟨app', stepped, ready.call (c := .pop) trivial stepped, venue⟩

theorem Venue.run_append (v : Venue) (cs ds : List Venue.Call) : (v.run (cs ++ ds)).2 = ((v.run cs).2.run ds).2 := by
  induction cs generalizing v with
  | nil => rfl
  | cons c cs inductionHypothesis => exact inductionHypothesis _

theorem Event.run_venue {env : Env} {app : App} {events : List Event} (ready : app.Serving) (fine : ∀ event ∈ events, event.Fine env) :
    ∃ app', Run (Event.step env) (fun _ _ => True) app events app' ∧ app'.Serving ∧
      app'.venue = (app.venue.run (events.filterMap (Event.call env))).2 := by
  induction events generalizing app with
  | nil => exact ⟨app, .nil, ready, rfl⟩
  | cons event events inductionHypothesis =>
    obtain ⟨fineFirst, fineRest⟩ := List.forall_mem_cons.mp fine
    obtain ⟨next, stepped, readyNext, venueNext⟩ := step_venue ready fineFirst
    obtain ⟨last, run, readyLast, venueLast⟩ := inductionHypothesis readyNext fineRest
    refine ⟨last, .cons trivial stepped run, readyLast, ?_⟩
    rw [venueLast, venueNext, ← Venue.run_append]
    congr 2
    rw [List.filterMap_cons]
    cases event.call env <;> rfl

namespace RestServ

/-- What is printed of the markets is what the server shows of them. -/
theorem print_serve (env : Env) (app : App) (r : HttpRequest) (now : Int) (maxLevels : Nat) (scope : Scope) :
    (serve env app r now (.getMarket scope)).map (fun shown => RestApp.printMarkets maxLevels scope shown.markets) =
      RestApp.getMarket env.instrs app maxLevels scope := by
  rw [serve, RestApp.getMarket, App.selectMarkets_eq]
  cases scope.quotes env.instrs (RestApp.markets app) <;> rfl

end RestServ

end Swirly
