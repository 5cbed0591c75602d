import Swirly.Verified.Accnt.Shown

/-!
# Requests of different accounts

The value of the `Swirly-Accnt` header goes through a buffer of 24 characters and a symbol of 16, and the symbol selects
the session.  A request of one symbol shows nothing of another, and does nothing to it but match its orders, unless it
posts a trade that names it.
-/

namespace Swirly

/-- The parser of HTTP hands the value of the account header over in parts. -/
def HttpRequest.Carries (r : HttpRequest) (value : Bytes) : Prop :=
  ∃ parts : List Bytes, parts.flatten = value ∧ r.accnt = parts.foldl StringBuf.append .empty

theorem HttpRequest.Carries.symbol {r : HttpRequest} {value : Bytes} (carries : r.Carries value) :
    Symbol.assign r.accnt.data = Symbol.assign value := by
  obtain ⟨parts, rfl, buffered⟩ := carries
  have data : r.accnt.data = parts.flatten.take 24 := by
    have nothing : (StringBuf.empty : StringBuf 24).data = ([] : Bytes).take 24 := rfl
    rw [buffered, StringBuf.data_foldl_append nothing parts, List.nil_append]
  -- The buffer holds more than the symbol takes.
  apply Symbol.buf_injective
  show pstrcpy maxSymbol r.accnt.data = pstrcpy maxSymbol parts.flatten
  rw [data, pstrcpy, pstrcpy, List.take_take, List.length_take]
  congr 2
  show 16 - min 24 _ = 16 - _
  omega

namespace Route

/-- The routes of `GET`. -/
def Reads : Route → Prop
  | getRefData _ | getAsset _ | getInstr _ | getMarket _ | getSess _ | getOrder _ | getExec | getTrade _ | getPosn _ => True
  | postMarket _ | putMarket .. | postOrder _ | putOrder .. | postTrade _ | deleteTrade .. => False

end Route

namespace RestServ

open App

variable {env : Env} {app app' app₂ : App} {r : HttpRequest} {a : Symbol} {route : Route}

/-- The account of the order that a request posts. -/
def taker (env : Env) (r : HttpRequest) : Option Symbol :=
  match RestServ.route env r with
  | .ok (.postOrder _) => some (.assign r.accnt.data)
  | _ => none

/-- The account of the header, and those that the trade of an admin names. -/
inductive ActsFor (r : HttpRequest) : Route → Symbol → Prop
  | header {route : Route} : ActsFor r route (.assign r.accnt.data)
  | trade {path : OrderPath} (admin : getAdmin r = .ok r.accnt.data) : ActsFor r (.postTrade path) (.assign r.body.accnt)
  | cpty {path : OrderPath} (admin : getAdmin r = .ok r.accnt.data) : ActsFor r (.postTrade path) (.assign r.body.cpty)

/-! ## Reading -/

/-- What a read of an account comes to. -/
inductive Read (app : App) (a : Symbol) : Outcome Shown → Prop
  | fault : Read app a .fault
  | throw {e : Exception} : Read app a (.throw e (app.ensureSess a))
  | ok {shown : Shown} (own : shown.Of (· = a)) : Read app a (.ok shown (app.ensureSess a))

theorem account_ensureSess (b : Symbol) : RestApp.account (app.ensureSess b) a = RestApp.account app a := by
  simp only [RestApp.account, RestApp.orders, RestApp.execs, RestApp.trades, RestApp.posns, sess_ensureSess]
  rfl

/-- The rows that are selected are among all the rows. -/
theorem select_cases {α : Type} (instrs : RefData) (app : App) (request : α → Request) (missing : Int → Exception)
    (rows : List α) (scope : Scope) :
    RestApp.select instrs app request missing rows scope = .fault ∨
      (∃ e, RestApp.select instrs app request missing rows scope = .throw e app) ∨
      ∃ picked, RestApp.select instrs app request missing rows scope = .ok picked app ∧ picked ⊆ rows := by
  cases scope with
  | all => exact .inr (.inr ⟨rows, rfl, List.Subset.refl rows⟩)
  | instr instr => exact .inr (.inr ⟨_, rfl, List.filter_subset_self rows⟩)
  | market instr settlDate =>
    rw [RestApp.select]
    cases RestApp.findMarket instrs instr settlDate with
    | none => exact .inr (.inl ⟨_, rfl⟩)
    | some m => exact .inr (.inr ⟨_, rfl, List.filter_subset_self rows⟩)
  | ids instr settlDate ids =>
    cases ids with
    | nil => exact .inl rfl
    | cons id ids =>
      rw [RestApp.select]
      cases RestApp.findMarket instrs instr settlDate with
      | none => exact .inr (.inl ⟨_, rfl⟩)
      | some m =>
        dsimp only
        cases found : rows.find? fun x => (request x).key = idKey m id with
        | none => exact .inr (.inl ⟨_, rfl⟩)
        | some x => exact .inr (.inr ⟨[x], rfl, by simpa using List.mem_of_find?_eq_some found⟩)

theorem getBySymbol_result (known : Symbol → Bool) (missing : Symbol → Exception) (symbol : Option Symbol) :
    (RestApp.getBySymbol app known missing symbol).result = (RestApp.getBySymbol app₂ known missing symbol).result := by
  cases symbol with
  | none => rfl
  | some symbol =>
    rw [RestApp.getBySymbol, RestApp.getBySymbol]
    cases known symbol <;> rfl

theorem selectMarkets_result (same : RestApp.markets app = RestApp.markets app₂) (instrs : RefData) (scope : Scope) :
    (RestApp.selectMarkets instrs app scope).result = (RestApp.selectMarkets instrs app₂ scope).result := by
  rw [selectMarkets_eq, selectMarkets_eq, Outcome.result_given, Outcome.result_given, same]

/-- The selection does not depend on anything else. -/
theorem select_result {α : Type} (instrs : RefData) (request : α → Request) (missing : Int → Exception) (rows : List α)
    (scope : Scope) : (RestApp.select instrs app request missing rows scope).result =
      (RestApp.select instrs app₂ request missing rows scope).result := by
  cases scope with
  | all => rfl
  | instr instr => rfl
  | market instr settlDate =>
    rw [RestApp.select, RestApp.select]
    cases RestApp.findMarket instrs instr settlDate <;> rfl
  | ids instr settlDate ids =>
    cases ids with
    | nil => rfl
    | cons id ids =>
      rw [RestApp.select, RestApp.select]
      cases RestApp.findMarket instrs instr settlDate with
      | none => rfl
      | some m =>
        dsimp only
        cases rows.find? fun x => (request x).key = idKey m id <;> rfl

theorem rows_subset {α : Type} (page : Page) (all : List α) : page.rows all ⊆ all := by
  intro x member
  rw [Page.rows] at member
  split at member
  next => exact List.mem_of_mem_drop (List.mem_of_mem_take member)
  next => exact List.mem_of_mem_drop member

section Account

variable (settled : app.Settled)
include settled

theorem account_own (a : Symbol) : (RestApp.account (app.ensureSess a) a).Of (· = a) := by
  rw [account_ensureSess]
  exact settled.account_of

theorem getSess_read (a : Symbol) (es : List Entity) (page : Page) : Read app a (RestApp.getSess app a es page) := by
  obtain ⟨orders, execs, trades, posns⟩ := account_own settled a
  refine .ok ⟨fun o member => ?_, fun x member => ?_, fun x member => ?_, fun x member => ?_⟩
  · dsimp only at member
    split at member
    next => exact orders o member
    next => cases member
  · dsimp only at member
    split at member
    next => exact execs x (rows_subset page _ member)
    next => cases member
  · dsimp only at member
    split at member
    next => exact trades x member
    next => cases member
  · dsimp only at member
    split at member
    next => exact posns x member
    next => cases member

theorem getOrder_read (instrs : RefData) (a : Symbol) (scope : Scope) : Read app a (RestApp.getOrder instrs app a scope) := by
  rw [RestApp.getOrder]
  obtain fault | rejected | selected := select_cases instrs (app.ensureSess a) Order.toRequest .orderNotFound
    (RestApp.orders (app.ensureSess a) a) scope
  · rw [fault]
    exact .fault
  · obtain ⟨e, rejected⟩ := rejected
    rw [rejected]
    exact .throw
  · obtain ⟨picked, selected, inside⟩ := selected
    rw [selected]
    exact .ok ⟨fun o member => (account_own settled a).orders o (inside member), List.forall_mem_nil _,
      List.forall_mem_nil _, List.forall_mem_nil _⟩

theorem getExec_read (a : Symbol) (page : Page) : Read app a (RestApp.getExec app a page) :=
  .ok ⟨List.forall_mem_nil _, fun x member => (account_own settled a).execs x (rows_subset page _ member),
    List.forall_mem_nil _, List.forall_mem_nil _⟩

theorem getTrade_read (instrs : RefData) (a : Symbol) (scope : Scope) : Read app a (RestApp.getTrade instrs app a scope) := by
  rw [RestApp.getTrade]
  obtain fault | rejected | selected := select_cases instrs (app.ensureSess a) Exec.toRequest .tradeNotFound
    (RestApp.trades (app.ensureSess a) a) scope
  · rw [fault]
    exact .fault
  · obtain ⟨e, rejected⟩ := rejected
    rw [rejected]
    exact .throw
  · obtain ⟨picked, selected, inside⟩ := selected
    rw [selected]
    exact .ok ⟨List.forall_mem_nil _, List.forall_mem_nil _,
      fun x member => (account_own settled a).trades x (inside member), List.forall_mem_nil _⟩

theorem getPosn_one (instrs : RefData) (a : Symbol) (instr : Symbol) (settlDate : Int) :
    Read app a (RestApp.getPosn instrs app a (.market instr settlDate)) := by
  have own := (account_own settled a).posns
  rw [RestApp.getPosn]
  cases RestApp.findMarket instrs instr settlDate with
  | none => exact .throw
  | some m =>
    dsimp only
    cases found : (RestApp.posns (app.ensureSess a) a).find? (·.marketId = m) with
    | none => exact .throw
    | some row =>
      refine .ok ⟨List.forall_mem_nil _, List.forall_mem_nil _, List.forall_mem_nil _, fun x member => ?_⟩
      rw [List.mem_singleton.mp member]
      exact own row (List.mem_of_find?_eq_some found)

theorem getPosn_read (instrs : RefData) (a : Symbol) (scope : Scope) : Read app a (RestApp.getPosn instrs app a scope) := by
  have own := (account_own settled a).posns
  cases scope with
  | all => exact .ok ⟨List.forall_mem_nil _, List.forall_mem_nil _, List.forall_mem_nil _, own⟩
  | instr instr =>
    exact .ok ⟨List.forall_mem_nil _, List.forall_mem_nil _, List.forall_mem_nil _,
      fun x member => own x (List.mem_filter.mp member).1⟩
  | market instr settlDate => exact getPosn_one settled instrs a instr settlDate
  | ids instr settlDate ids => exact getPosn_one settled instrs a instr settlDate

end Account

/-! ## Serving -/

/-- What a request comes to. -/
inductive Served (app : App) (Mine : Symbol → Prop) (taker : Option Symbol) : Outcome Shown → Prop
  | fault : Served app Mine taker .fault
  | rejected {e : Exception} : Served app Mine taker (.throw e app)
  | known {e : Exception} {a : Symbol} (mine : Mine a) : Served app Mine taker (.throw e (app.ensureSess a))
  | quoted {markets : List ShownMarket} : Served app Mine taker (.ok { Shown.nothing with markets } app)
  | read {a : Symbol} {outcome : Outcome Shown} (mine : Mine a) (read : Read app a outcome) : Served app Mine taker outcome
  | called {op : Op} (mine : ∀ a, op.ActsFor a → Mine a) (same : op.taker.isSome → op.taker = taker) :
      Served app Mine taker (RestApp.print (app.call op))
  | market {op : Op} {id : Int} (idle : ∀ a, ¬ op.ActsFor a) (untaken : op.taker = none) :
      Served app Mine taker (RestApp.printMarket id (app.call op))

theorem getPermitted_ok {bit : Nat} {missing : Exception} {accnt : Bytes} (permitted : getPermitted bit missing r = .ok accnt) :
    accnt = r.accnt.data := by
  rw [getPermitted, getAccnt] at permitted
  split at permitted
  next => cases permitted
  next known =>
    split at known
    next => cases known
    next =>
      split at permitted
      next =>
        cases known
        cases permitted
        rfl
      next => cases permitted

/-- A request with a permission acts for the account of its header. -/
theorem Served.withAccnt {bit : Nat} {missing : Exception} {Mine : Symbol → Prop} {serve : Bytes → Outcome Shown}
    {given : Option Symbol}
    (served : getPermitted bit missing r = .ok r.accnt.data → Served app Mine given (serve r.accnt.data)) :
    Served app Mine given (RestServ.withAccnt app (getPermitted bit missing r) serve) := by
  cases permitted : getPermitted bit missing r with
  | error e => exact .rejected
  | ok accnt =>
    obtain rfl : accnt = r.accnt.data := getPermitted_ok permitted
    exact served permitted

theorem Served.withFields {Mine : Symbol → Prop} {body : RestBody} {required optional : List Field} {outcome : Outcome Shown}
    {given : Option Symbol} (served : Served app Mine given outcome) :
    Served app Mine given (RestServ.withFields app body required optional outcome) := by
  rw [RestServ.withFields]
  split
  next => exact served
  next => exact .rejected

theorem selectMarkets_served {Mine : Symbol → Prop} {given : Option Symbol} (instrs : RefData) (scope : Scope) :
    Served app Mine given ((RestApp.selectMarkets instrs app scope).map fun markets => { Shown.nothing with markets }) := by
  rw [selectMarkets_eq, Outcome.map_given]
  cases scope.quotes instrs (RestApp.markets app) with
  | error e => exact .rejected
  | ok markets => exact .quoted

theorem getBySymbol_served {Mine : Symbol → Prop} {given : Option Symbol} (known : Symbol → Bool) (missing : Symbol → Exception)
    (symbol : Option Symbol) : Served app Mine given (RestApp.getBySymbol app known missing symbol) := by
  rw [RestApp.getBySymbol.eq_def]
  split
  next => exact .quoted
  next =>
    split
    next => exact .quoted
    next => exact .rejected

theorem serve_served (settled : app.Settled) (now : Int) (routed : RestServ.route env r = .ok route) :
    Served app (ActsFor r route) (taker env r) (serve env app r now route) := by
  cases route with
  | getRefData es => exact .quoted
  | getAsset symbol => exact getBySymbol_served _ _ _
  | getInstr symbol => exact getBySymbol_served _ _ _
  | getMarket scope => exact selectMarkets_served _ _
  | getSess es => exact .withAccnt fun _ => (.read .header (getSess_read settled _ _ _))
  | getOrder scope => exact .withAccnt fun _ => (.read .header (getOrder_read settled _ _ _))
  | getExec => exact .withAccnt fun _ => (.read .header (getExec_read settled _ _))
  | getTrade scope => exact .withAccnt fun _ => (.read .header (getTrade_read settled _ _ _))
  | getPosn scope => exact .withAccnt fun _ => (.read .header (getPosn_read settled _ _ _))
  | postMarket path =>
    refine .withAccnt fun admin => .withFields ?_
    rw [RestApp.postMarket, RestApp.withInstr]
    split
    next => exact .rejected
    next => exact .market (fun a acts => acts) rfl
  | putMarket instr settlDate =>
    refine .withAccnt fun admin => .withFields ?_
    rw [RestApp.putMarket, RestApp.withInstr]
    split
    next => exact .rejected
    next => exact .market (fun a acts => acts) rfl
  | postOrder path =>
    refine .withAccnt fun _ => ?_
    rw [orderRequest]
    split
    next =>
      split
      next side known =>
        rw [postOrder]
        split
        next => exact .known .header
        next =>
          refine .called (fun a acts => ?_) fun _ => ?_
          · have acts : Symbol.assign r.accnt.data = a := acts
            rw [← acts]
            exact .header
          -- The order of the request is the taker of every match.
          · rw [taker, routed]
            rfl
      next => exact .fault
    next => exact .rejected
  | putOrder instr settlDate ids =>
    refine .withAccnt fun admin => .withFields ?_
    unfold RestApp.putOrder RestApp.withInstr
    cases env.instrs.find (.assign instr) with
    | none => exact .known .header
    | some id =>
      refine .called (fun a acts => ?_) (fun some_ => by cases some_)
      have acts : Symbol.assign r.accnt.data = a := acts
      rw [← acts]
      exact .header
  | postTrade path =>
    refine .withAccnt fun admin => .withFields ?_
    rw [RestServ.postTrade]
    split
    next => exact .fault
    next =>
      rw [RestApp.postTrade, RestApp.withInstr]
      split
      next => exact .known (.trade admin)
      next =>
        refine .called (fun a acts => ?_) (fun some_ => by cases some_)
        have acts : Symbol.assign r.body.accnt = a ∨ ((Symbol.assign r.body.cpty).isEmpty = false ∧
          Symbol.assign r.body.cpty = a) := acts
        -- The body names both sides of the trade.
        obtain accnt | cpty := acts
        · rw [← accnt]
          exact .trade admin
        · rw [← cpty.2]
          exact .cpty admin
  | deleteTrade instr settlDate ids =>
    refine .withAccnt fun _ => ?_
    rw [RestApp.deleteTrade, RestApp.withInstr]
    split
    next => exact .known .header
    next =>
      refine .called (fun a acts => ?_) (fun some_ => by cases some_)
      have acts : Symbol.assign r.accnt.data = a := acts
      rw [← acts]
      exact .header

/-! ## Routes -/

/-- A `GET` reads. -/
def Gets (methods : Methods) : Prop := ∀ route, methods.lookup .get = some route → route.Reads

theorem gets_cons {first : Route} (reads : first.Reads) (others : Methods) : Gets ((.get, first) :: others) := by
  intro route found
  cases found
  exact reads

theorem none_gets : ∀ methods ∈ (none : Option Methods), Gets methods := fun _ found => by cases found

theorem some_gets {methods : Methods} (gets : Gets methods) : ∀ found ∈ some methods, Gets found := fun _ found => by
  cases found
  exact gets

theorem gets_one {route : Route} {Wanted : Prop} [Decidable Wanted] (reads : route.Reads) :
    ∀ methods ∈ (if Wanted then some [(HttpMethod.get, route)] else none), Gets methods := by
  split
  next => exact some_gets (gets_cons reads _)
  next => exact none_gets

theorem marketRequest_gets (path : List Bytes) : ∀ methods ∈ marketRequest path, Gets methods := by
  intro methods found
  unfold marketRequest at found
  split at found <;> cases found <;> exact gets_cons (by trivial) _

theorem orderPaths_gets (path : List Bytes) : ∀ methods ∈ orderPaths path, Gets methods := by
  intro methods found
  unfold orderPaths at found
  split at found <;> cases found <;> exact gets_cons (by trivial) _

theorem execRequest_gets (path : List Bytes) : ∀ methods ∈ execRequest path, Gets methods := by
  intro methods found
  unfold execRequest at found
  split at found <;> cases found
  exact gets_cons (by trivial) _

theorem tradeRequest_gets (path : List Bytes) : ∀ methods ∈ tradeRequest path, Gets methods := by
  intro methods found
  unfold tradeRequest at found
  split at found <;> cases found <;> exact gets_cons (by trivial) _

theorem posnRequest_gets (path : List Bytes) : ∀ methods ∈ posnRequest path, Gets methods := by
  intro methods found
  unfold posnRequest at found
  split at found <;> cases found <;> exact gets_cons (by trivial) _

theorem symbolRequest_gets {get : Option Symbol → Route} (reads : ∀ symbol, (get symbol).Reads) (path : List Bytes) :
    ∀ methods ∈ symbolRequest get path, Gets methods := by
  intro methods found
  unfold symbolRequest at found
  split at found <;> cases found <;> exact gets_cons (reads _) _

theorem refDataRequest_gets {path : List Bytes} {found : Option Methods} (parsed : refDataRequest path = .ok found) :
    ∀ methods ∈ found, Gets methods := by
  unfold refDataRequest at parsed
  split at parsed
  next =>
    cases parsed
    exact some_gets (gets_cons (by trivial) _)
  next =>
    split at parsed
    next => cases parsed
    next =>
      split at parsed
      next => cases parsed; exact gets_one (by trivial)
      next =>
        split at parsed
        next => cases parsed; exact symbolRequest_gets (fun symbol => show (Route.getAsset symbol).Reads from trivial) _
        next => cases parsed; exact symbolRequest_gets (fun symbol => show (Route.getInstr symbol).Reads from trivial) _
        next => cases parsed; exact none_gets

theorem sessRequest_gets {path : List Bytes} {found : Option Methods} (parsed : sessRequest path = .ok found) :
    ∀ methods ∈ found, Gets methods := by
  unfold sessRequest at parsed
  split at parsed
  next =>
    cases parsed
    exact some_gets (gets_cons (by trivial) _)
  next =>
    split at parsed
    next => cases parsed
    next =>
      split at parsed
      next => cases parsed; exact gets_one (by trivial)
      next =>
        split at parsed
        next => cases parsed; exact marketRequest_gets _
        next => cases parsed; exact orderPaths_gets _
        next => cases parsed; exact execRequest_gets _
        next => cases parsed; exact tradeRequest_gets _
        next => cases parsed; exact posnRequest_gets _
        next => cases parsed; exact none_gets

/-- A `GET` has a route that reads. -/
theorem route_reads (routed : RestServ.route env r = .ok route) (method : r.method = .get) : route.Reads := by
  unfold RestServ.route at routed
  dsimp only at routed
  split at routed
  next => cases routed
  next => cases routed
  next methods parsed =>
    split at routed
    next => cases routed
    next found listed =>
      cases routed
      rw [method] at listed
      refine (?_ : Gets methods) _ listed
      unfold restRequest at parsed
      split at parsed
      next =>
        split at parsed
        next => cases parsed
        next =>
          split at parsed
          next => exact refDataRequest_gets parsed _ rfl
          next =>
            split at parsed
            next => exact sessRequest_gets parsed _ rfl
            next =>
              split at parsed
              next => exact marketRequest_gets _ _ (Except.ok.inj parsed)
              next => cases parsed
      next => cases parsed

/-! ## Accounts apart -/

section Same

variable (same : RestApp.account app a = RestApp.account app₂ a)
include same

theorem account_ensured : RestApp.account (app.ensureSess a) a = RestApp.account (app₂.ensureSess a) a := by
  rw [account_ensureSess, account_ensureSess, same]

theorem getSess_accounts (es : List Entity) (page : Page) :
    ((RestApp.getSess app a es page).map Shown.accounts).result = ((RestApp.getSess app₂ a es page).map Shown.accounts).result := by
  have orders := congrArg Shown.orders (account_ensured same)
  have execs := congrArg Shown.execs (account_ensured same)
  have trades := congrArg Shown.trades (account_ensured same)
  have posns := congrArg Shown.posns (account_ensured same)
  simp only [RestApp.account] at orders execs trades posns
  simp only [RestApp.getSess, Outcome.map, Outcome.result, Shown.accounts, orders, execs, trades, posns]

theorem getSess_result (markets : RestApp.markets app = RestApp.markets app₂) (es : List Entity) (page : Page) :
    (RestApp.getSess app a es page).result = (RestApp.getSess app₂ a es page).result := by
  have ensured (app : App) : RestApp.markets (app.ensureSess a) = RestApp.markets app := rfl
  have shown := getSess_accounts same es page
  simp only [RestApp.getSess, Outcome.map, Outcome.result, Shown.accounts, Option.some.injEq, Except.ok.injEq, Shown.mk.injEq,
    true_and] at shown
  simp only [RestApp.getSess, Outcome.result, ensured, markets, shown]

theorem getOrder_result (instrs : RefData) (scope : Scope) :
    (RestApp.getOrder instrs app a scope).result = (RestApp.getOrder instrs app₂ a scope).result := by
  have orders : RestApp.orders (app.ensureSess a) a = RestApp.orders (app₂.ensureSess a) a :=
    congrArg Shown.orders (account_ensured same)
  rw [RestApp.getOrder, RestApp.getOrder, orders]
  exact Outcome.result_map (select_result _ _ _ _ _)

theorem getExec_result (page : Page) : (RestApp.getExec app a page).result = (RestApp.getExec app₂ a page).result := by
  have execs : RestApp.execs (app.ensureSess a) a = RestApp.execs (app₂.ensureSess a) a :=
    congrArg Shown.execs (account_ensured same)
  simp only [RestApp.getExec, Outcome.result, execs]

theorem getTrade_result (instrs : RefData) (scope : Scope) :
    (RestApp.getTrade instrs app a scope).result = (RestApp.getTrade instrs app₂ a scope).result := by
  have trades : RestApp.trades (app.ensureSess a) a = RestApp.trades (app₂.ensureSess a) a :=
    congrArg Shown.trades (account_ensured same)
  rw [RestApp.getTrade, RestApp.getTrade, trades]
  exact Outcome.result_map (select_result _ _ _ _ _)

theorem getPosn_result (instrs : RefData) (scope : Scope) :
    (RestApp.getPosn instrs app a scope).result = (RestApp.getPosn instrs app₂ a scope).result := by
  have posns : RestApp.posns (app.ensureSess a) a = RestApp.posns (app₂.ensureSess a) a :=
    congrArg Shown.posns (account_ensured same)
  have one : ∀ instr settlDate, (RestApp.getPosn instrs app a (.market instr settlDate)).result =
      (RestApp.getPosn instrs app₂ a (.market instr settlDate)).result := by
    intro instr settlDate
    simp only [RestApp.getPosn, posns]
    cases RestApp.findMarket instrs instr settlDate with
    | none => rfl
    | some m =>
      dsimp only
      cases (RestApp.posns (app₂.ensureSess a) a).find? (·.marketId = m) <;> rfl
  cases scope with
  | all => simp only [RestApp.getPosn, posns, Outcome.result]
  | instr instr => simp only [RestApp.getPosn, posns, Outcome.result]
  | market instr settlDate => exact one instr settlDate
  | ids instr settlDate ids => exact one instr settlDate

end Same

theorem withAccnt_result {bit : Nat} {missing : Exception} {first second : Bytes → Outcome Shown}
    (same : (first r.accnt.data).result = (second r.accnt.data).result) :
    (withAccnt app (getPermitted bit missing r) first).result = (withAccnt app₂ (getPermitted bit missing r) second).result := by
  cases permitted : getPermitted bit missing r with
  | error e => rfl
  | ok accnt =>
    rw [getPermitted_ok permitted]
    exact same

theorem withAccnt_map {serve : Bytes → Outcome Shown} (f : Shown → Shown) (accnt : Except Exception Bytes) :
    (withAccnt app accnt serve).map f = withAccnt app accnt fun accnt => (serve accnt).map f := by
  cases accnt <;> rfl

/-- What is read of accounts is a function of what there is to show of the account. -/
theorem serve_accounts (reads : route.Reads) (unquoted : ∀ scope, route ≠ .getMarket scope)
    (same : RestApp.account app (.assign r.accnt.data) = RestApp.account app₂ (.assign r.accnt.data)) (now : Int) :
    ((serve env app r now route).map Shown.accounts).result = ((serve env app₂ r now route).map Shown.accounts).result := by
  cases route with
  | getRefData es => rfl
  | getAsset symbol => exact Outcome.result_map (getBySymbol_result _ _ _)
  | getInstr symbol => exact Outcome.result_map (getBySymbol_result _ _ _)
  | getMarket scope => exact absurd rfl (unquoted scope)
  | getSess es =>
    rw [serve, serve, withAccnt_map, withAccnt_map]
    exact withAccnt_result (getSess_accounts same _ _)
  | getOrder scope => exact Outcome.result_map (withAccnt_result (getOrder_result same _ _))
  | getExec => exact Outcome.result_map (withAccnt_result (getExec_result same _))
  | getTrade scope => exact Outcome.result_map (withAccnt_result (getTrade_result same _ _))
  | getPosn scope => exact Outcome.result_map (withAccnt_result (getPosn_result same _ _))
  | postMarket | putMarket | postOrder | putOrder | postTrade | deleteTrade => exact reads.elim

/-- What is read is a function of the markets and of what there is to show of the account. -/
theorem serve_result (reads : route.Reads) (markets : RestApp.markets app = RestApp.markets app₂)
    (same : RestApp.account app (.assign r.accnt.data) = RestApp.account app₂ (.assign r.accnt.data)) (now : Int) :
    (serve env app r now route).result = (serve env app₂ r now route).result := by
  cases route with
  | getRefData es => simp only [serve, RestApp.getRefData, Outcome.result, markets]
  | getAsset symbol => exact getBySymbol_result _ _ _
  | getInstr symbol => exact getBySymbol_result _ _ _
  | getMarket scope => exact Outcome.result_map (selectMarkets_result markets _ _)
  | getSess es => exact withAccnt_result (getSess_result same markets _ _)
  | getOrder scope => exact withAccnt_result (getOrder_result same _ _)
  | getExec => exact withAccnt_result (getExec_result same _)
  | getTrade scope => exact withAccnt_result (getTrade_result same _ _)
  | getPosn scope => exact withAccnt_result (getPosn_result same _ _)
  | postMarket | putMarket | postOrder | putOrder | postTrade | deleteTrade => exact reads.elim

theorem printAs_state (shown : App → Reply → Shown) (op : Op) : (RestApp.printAs shown (app.call op)).state = app.step op := by
  rw [App.step]
  cases app.call op <;> rfl

/-- A request leaves the engine as it is, or it comes to one of its calls. -/
theorem Served.steps {Mine : Symbol → Prop} {given : Option Symbol} {outcome : Outcome Shown}
    (served : Served app Mine given outcome) (ends : outcome.state = some app') : app' = app ∨
    ∃ op, app.step op = some app' ∧ (∀ a, op.ActsFor a → Mine a) ∧ (op.taker.isSome → op.taker = given) := by
  have sess : ∀ b, Mine b → ∃ op, app.step op = some (app.ensureSess b) ∧ (∀ a, op.ActsFor a → Mine a) ∧
      (op.taker.isSome → op.taker = given) := fun b mine =>
    ⟨.sess b, rfl, fun a acts => (show b = a from acts) ▸ mine, fun some_ => by cases some_⟩
  cases served with
  | fault => cases ends
  | rejected => cases ends; exact .inl rfl
  | known mine => cases ends; exact .inr (sess _ mine)
  | quoted => cases ends; exact .inl rfl
  | read mine read =>
    cases read with
    | fault => cases ends
    | throw => cases ends; exact .inr (sess _ mine)
    | ok own => cases ends; exact .inr (sess _ mine)
  | @called op mine same =>
    exact .inr ⟨op, (printAs_state _ op).symm.trans ends, mine, same⟩
  | @market op id idle untaken =>
    exact .inr ⟨op, (printAs_state _ op).symm.trans ends, fun a acts => absurd acts (idle a), fun some_ => by simp [untaken] at some_⟩

theorem Served.settled {Mine : Symbol → Prop} {given : Option Symbol} {outcome : Outcome Shown} (settled : app.Settled)
    (served : Served app Mine given outcome) (ends : outcome.state = some app') : app'.Settled := by
  obtain rfl | ⟨op, stepped, -, -⟩ := served.steps ends
  · exact settled
  · exact settled.step stepped

/-- A request does nothing to an account that it does not act for, but match its orders. -/
theorem Served.apart {Mine : Symbol → Prop} {given : Option Symbol} {outcome : Outcome Shown} (settled : app.Settled)
    (served : Served app Mine given outcome) (other : ¬ Mine a) (ends : outcome.state = some app') :
    ∃ es, app.Apart given a es app' := by
  obtain rfl | ⟨op, stepped, mine, same⟩ := served.steps ends
  · exact ⟨[], .of_same settled.inv rfl rfl rfl rfl rfl rfl⟩
  · obtain ⟨es, apart⟩ := step_apart settled.inv settled.trades stepped fun acts => other (mine a acts)
    refine ⟨es, { apart with matched := fun e member => ?_ }⟩
    obtain ⟨trade, accnt, liqInd, cpty⟩ := apart.matched e member
    exact ⟨trade, accnt, liqInd, (same (by rw [cpty]; rfl)).symm.trans cpty⟩

theorem Served.shown {Mine : Symbol → Prop} {given : Option Symbol} {shown : Shown} (settled : app.Settled)
    (served : Served app Mine given (.ok shown app')) : shown.Of Mine := by
  generalize ended : Outcome.ok shown app' = outcome at served
  cases served with
  | fault => cases ended
  | rejected => cases ended
  | known => cases ended
  | quoted => cases ended; exact Shown.of_markets _
  | read mine read =>
    cases read with
    | fault => cases ended
    | throw => cases ended
    | ok own =>
      cases ended
      exact own.mono fun b here => here ▸ mine
  | @called op mine same =>
    cases called : app.call op with
    | ok result next =>
      rw [called] at ended
      cases ended
      exact (settled.call_of called).mono mine
    | throw => rw [called] at ended; cases ended
    | fault => rw [called] at ended; cases ended
  | @market op id idle untaken =>
    cases called : app.call op with
    | ok result next =>
      rw [called] at ended
      cases ended
      exact Shown.of_markets _
    | throw => rw [called] at ended; cases ended
    | fault => rw [called] at ended; cases ended

theorem Served.mono {Mine Others : Symbol → Prop} {given : Option Symbol} {outcome : Outcome Shown}
    (served : Served app Mine given outcome) (weaker : ∀ b, Mine b → Others b) : Served app Others given outcome := by
  cases served with
  | fault => exact .fault
  | rejected => exact .rejected
  | known mine => exact .known (weaker _ mine)
  | quoted => exact .quoted
  | read mine read => exact .read (weaker _ mine) read
  | called mine same => exact .called (fun b acts => weaker b (mine b acts)) same
  | market idle untaken => exact .market idle untaken

/-- The accounts that a request acts for, whatever its route. -/
def Names (env : Env) (r : HttpRequest) (a : Symbol) : Prop := ∃ route, RestServ.route env r = .ok route ∧ ActsFor r route a

theorem handleRequest_served (settled : app.Settled) (clock : Int) :
    Served app (Names env r) (taker env r) (handleRequest env app clock r) := by
  rw [handleRequest]
  split
  next => exact .rejected
  next =>
    cases routed : RestServ.route env r with
    | error e => exact .rejected
    | ok route => exact (serve_served settled _ routed).mono fun b acts => ⟨route, routed, acts⟩

theorem settled_step {event : Event} (settled : app.Settled) (stepped : Event.step env app event = some app') :
    app'.Settled := by
  cases event with
  | request clock r => exact (handleRequest_served settled clock).settled settled stepped
  | pop => exact settled.step stepped

theorem accounts_isolated {capacity maxExecs : Nat} {events : List Event} {v w : Bytes}
    (run : Run (Event.step env) (fun _ _ => True) (App.make capacity maxExecs) events app)
    (carries : r.Carries v) (apart : Symbol.assign v ≠ Symbol.assign w)
    (unnamed : ∀ path accnt, RestServ.route env r = .ok (.postTrade path) → getAdmin r = .ok accnt →
      Symbol.assign r.body.accnt ≠ Symbol.assign w ∧ Symbol.assign r.body.cpty ≠ Symbol.assign w) (clock : Int) :
    (∀ shown app', handleRequest env app clock r = .ok shown app' → shown.Of (· ≠ Symbol.assign w)) ∧
    (r.method = .get → ∀ app₂, RestApp.account app (.assign v) = RestApp.account app₂ (.assign v) →
      ((∀ scope, RestServ.route env r ≠ .ok (.getMarket scope)) →
        ((handleRequest env app clock r).map Shown.accounts).result = ((handleRequest env app₂ clock r).map Shown.accounts).result) ∧
      (RestApp.markets app = RestApp.markets app₂ →
        (handleRequest env app clock r).result = (handleRequest env app₂ clock r).result)) ∧
    (∀ app', (handleRequest env app clock r).state = some app' → ∃ es, app.Apart (taker env r) (.assign w) es app') := by
  have settled : app.Settled := run.invariant (fun _ _ _ settled _ stepped => settled_step settled stepped) (.make _ _)
  have served : Served app (Names env r) (taker env r) (handleRequest env app clock r) := handleRequest_served settled clock
  have other : ∀ b, Names env r b → b ≠ Symbol.assign w := by
    intro b names
    obtain ⟨route, routed, acts⟩ := names
    cases acts with
    | header =>
      rw [carries.symbol]
      exact apart
    | trade admin => exact (unnamed _ _ routed admin).1
    | cpty admin => exact (unnamed _ _ routed admin).2
  refine ⟨fun shown app' done => ?_, fun method app₂ same => ?_, fun app' ends => ?_⟩
  · rw [done] at served
    exact (served.shown settled).mono other
  · rw [handleRequest, handleRequest]
    split
    next => exact ⟨fun _ => rfl, fun _ => rfl⟩
    next =>
      cases routed : RestServ.route env r with
      | error e => exact ⟨fun _ => rfl, fun _ => rfl⟩
      | ok route =>
        rw [← carries.symbol] at same
        have reads := route_reads routed method
        exact ⟨fun unquoted => serve_accounts reads (fun scope here => unquoted scope (congrArg Except.ok here)) same _,
          fun markets => serve_result reads markets same _⟩
  · exact served.apart settled (fun names => other _ names rfl) ends

/-- An exchange of one instrument. -/
def exchange : Env :=
  { instrs :=
      { find := fun instr => if instr = .assign (bytes "EURUSD") then some 1 else none, print := Symbol.display,
        asset := fun asset => asset = .assign (bytes "EUR") ∨ asset = .assign (bytes "USD") }
    path := fun url => url.takeWhile (· ≠ 63)
    query := fun url => (url.dropWhile (· ≠ 63)).drop 1
    method := fun method =>
      match method with
      | .delete => "DELETE"
      | .get => "GET"
      | .post => "POST"
      | .put => "PUT"
      | .other _ => "<unknown>"
    busDay := fun _ => 0 }

/-- A request with a permission. -/
def asked (accnt : Bytes) (perm : String) (method : HttpMethod) (url body : String) : HttpRequest :=
  { HttpRequest.clear with
    method
    url := .assign (bytes url)
    accnt := StringBuf.empty.append accnt
    perm := .assign (bytes perm)
    body := (bytes body).foldl RestBody.step .reset }

def openMarket : HttpRequest := asked (bytes "SWIRLY") "1" .post "/api/market/EURUSD/0" "\x7b\x7d"

def sell (accnt : Bytes) : HttpRequest :=
  asked accnt "2" .post "/api/sess/order/EURUSD/0" "\x7b\"side\":\"sell\",\"lots\":10,\"ticks\":5\x7d"

def buy (accnt : Bytes) : HttpRequest :=
  asked accnt "2" .post "/api/sess/order/EURUSD/0" "\x7b\"side\":\"buy\",\"lots\":4,\"ticks\":5\x7d"

theorem asked_carries (accnt : Bytes) (perm : String) (method : HttpMethod) (url body : String) :
    (asked accnt perm method url body).Carries accnt := ⟨[accnt], by simp, rfl⟩

/-- An order that matches one of another account. -/
theorem accounts_isolated_match :
    let v := bytes "GOSAYL"
    let w := bytes "MARAYL"
    ∃ app shown app', Run (Event.step exchange) (fun _ _ => True) (App.make 16 16)
        [.request 1 openMarket, .request 2 (sell w)] app ∧
      handleRequest exchange app 3 (buy v) = .ok shown app' ∧ shown.execs.length = 2 ∧ shown.Of (· ≠ Symbol.assign w) ∧
      ∃ es, app.Apart (some (.assign v)) (.assign w) es app' := by
  intro v w
  have made : ∃ app ∈ Run.exec (Event.step exchange) (fun _ _ => True) (App.make 16 16)
      [.request 1 openMarket, .request 2 (sell w)],
      ∃ r ∈ (handleRequest exchange app 3 (buy v)).returned, r.1.execs.length = 2 := by decide +kernel
  obtain ⟨app, done, ⟨shown, app'⟩, returned, two⟩ := made
  have ok := Outcome.eq_ok returned
  have routed : RestServ.route exchange (buy v) = .ok (.postOrder (.market (bytes "EURUSD") 0)) := by decide +kernel
  have carries : (buy v).Carries v := asked_carries _ _ _ _ _
  have differ : Symbol.assign v ≠ Symbol.assign w := by decide
  obtain ⟨own, -, apart⟩ := accounts_isolated (Run.of_exec done) carries differ
    (fun path accnt found => by rw [routed] at found; cases found) 3
  have given : taker exchange (buy v) = some (.assign v) := by
    rw [taker, routed]
    rfl
  rw [given] at apart
  exact ⟨app, shown, app', Run.of_exec done, ok, two, own shown app' ok, apart app' (by rw [ok]; rfl)⟩

/-- Two values that agree in sixteen characters are one account, which either of them reads and cancels orders of.  The
trade of an admin shows and changes the position of the account that it names. -/
theorem accounts_shared :
    let v := bytes "MARKET-MAKER-001-A"
    let w := bytes "MARKET-MAKER-001-B"
    v ≠ w ∧
    (∃ app, Run (Event.step exchange) (fun _ _ => True) (App.make 16 16) [.request 1 openMarket, .request 2 (sell v)] app ∧
      (∃ shown app', handleRequest exchange app 3 (asked w "2" .get "/api/sess/order" "") = .ok shown app' ∧
        shown.orders.map (·.lots) = [10]) ∧
      (∃ shown app', handleRequest exchange app 3
          (asked w "2" .put "/api/sess/order/EURUSD/0/1" "\x7b\"lots\":0\x7d") = .ok shown app' ∧
        shown.orders.map (·.state) = [.cancel])) ∧
    (∃ app shown app', Run (Event.step exchange) (fun _ _ => True) (App.make 16 16) [.request 1 openMarket] app ∧
      handleRequest exchange app 2 (asked w "1" .post "/api/sess/trade/EURUSD/0"
          "\x7b\"accnt\":\"GOSAYL\",\"side\":\"buy\",\"lots\":7\x7d") = .ok shown app' ∧
      shown.trades.map (·.accnt) = [.assign (bytes "GOSAYL")] ∧
      (app'.posn (.assign (bytes "GOSAYL"), toMarketId 1 0)).netLots = 7) := by
  have first : ∃ app ∈ Run.exec (Event.step exchange) (fun _ _ => True) (App.make 16 16)
      [.request 1 openMarket, .request 2 (sell (bytes "MARKET-MAKER-001-A"))],
      (∃ r ∈ (handleRequest exchange app 3 (asked (bytes "MARKET-MAKER-001-B") "2" .get "/api/sess/order" "")).returned,
        r.1.orders.map (·.lots) = [10]) ∧
      ∃ r ∈ (handleRequest exchange app 3 (asked (bytes "MARKET-MAKER-001-B") "2" .put "/api/sess/order/EURUSD/0/1"
          "\x7b\"lots\":0\x7d")).returned, r.1.orders.map (·.state) = [.cancel] := by decide +kernel
  have second : ∃ app ∈ Run.exec (Event.step exchange) (fun _ _ => True) (App.make 16 16) [.request 1 openMarket],
      ∃ r ∈ (handleRequest exchange app 2 (asked (bytes "MARKET-MAKER-001-B") "1" .post "/api/sess/trade/EURUSD/0"
          "\x7b\"accnt\":\"GOSAYL\",\"side\":\"buy\",\"lots\":7\x7d")).returned,
        r.1.trades.map (·.accnt) = [.assign (bytes "GOSAYL")] ∧
        (r.2.posn (.assign (bytes "GOSAYL"), toMarketId 1 0)).netLots = 7 := by decide +kernel
  obtain ⟨app, done, ⟨⟨read, app₁⟩, reads, lots⟩, ⟨cancelled, app₂⟩, cancels, state⟩ := first
  obtain ⟨start, opened, ⟨traded, app₃⟩, trades, accnt, netLots⟩ := second
  exact ⟨by decide, ⟨app, Run.of_exec done, ⟨read, app₁, Outcome.eq_ok reads, lots⟩, cancelled, app₂, Outcome.eq_ok cancels, state⟩,
    start, traded, app₃, Run.of_exec opened, Outcome.eq_ok trades, accnt, netLots⟩

end RestServ

end Swirly
