import Swirly.Swirlyd.RestServ
import Swirly.Verified.App.Sound

/-!
# Admission of orders

What `create_order` checks lets orders of negative lots through, and orders at a price of zero, which
`MarketSide::insert_order` asserts are none.  The requests that it treats as they should be are exactly those that it
rejects by a check and those of sound quantities that find room in the journal.
-/

namespace Swirly

open Function

namespace RestBody

variable {b b' : RestBody}

/-- A body with a side has one, and only text is read as a string. -/
structure Sided (b : RestBody) : Prop where
  side : .side ∈ b.fields → b.side.isSome
  text : ∀ f, b.cs = .strEnd f → f ≠ .side

theorem Sided.congr (sided : b.Sided) (fields : b'.fields = b.fields) (side : b'.side = b.side)
    (text : ∀ f, b'.cs = .strEnd f → f ≠ .side) : b'.Sided where
  side := by rw [fields, side]; exact sided.side
  text := text

theorem Sided.setField (sided : b.Sided) {f : Field} (other : f ≠ .side) : (b.setField f).Sided where
  side member := sided.side ((List.mem_insert_iff.mp member).resolve_left (Ne.symm other))
  text := sided.text

theorem Sided.null (sided : b.Sided) (f : Field) : (b.null f).Sided := by
  have cleared : (b.clearField f).Sided :=
    { side := fun member => sided.side (List.mem_filter.mp member).1
      text := sided.text }
  cases f <;> exact cleared.congr rfl rfl cleared.text

theorem Sided.fail (sided : b.Sided) (msg : String) : (b.fail msg).Sided := sided.congr rfl rfl nofun

theorem Sided.endNum (sided : b.Sided) (f : Field) : (b.endNum f).Sided := by
  cases f with
  | state =>
    rw [RestBody.endNum]
    split
    next => exact (sided.setField (f := .state) nofun).congr rfl rfl sided.text
    next => exact sided.fail _
  | settlDate => exact (sided.setField (f := .settlDate) nofun).congr rfl rfl sided.text
  | ticks => exact (sided.setField (f := .ticks) nofun).congr rfl rfl sided.text
  | lots => exact (sided.setField (f := .lots) nofun).congr rfl rfl sided.text
  | minLots => exact (sided.setField (f := .minLots) nofun).congr rfl rfl sided.text
  | symbol | accnt | instr | ref | side | liqInd | cpty => exact sided

theorem Sided.endWord (sided : b.Sided) (f : Field) (word : Bytes) : (b.endWord f word).Sided := by
  cases f with
  | side =>
    refine ⟨fun _ => ?_, sided.text⟩
    rw [RestBody.endWord]
    simp only
    split <;> rfl
  | liqInd => exact (sided.setField (f := .liqInd) nofun).congr rfl rfl sided.text
  | symbol | accnt | instr | settlDate | ref | state | lots | ticks | minLots | cpty => exact sided

theorem Sided.afterValue (sided : b.Sided) (c : UInt8) : (b.afterValue c).Sided := by
  rw [RestBody.afterValue]
  split
  next => exact sided
  next =>
    repeat' split
    all_goals exact sided.congr rfl rfl nofun

theorem Sided.setText (sided : b.Sided) (s : Bytes) (f : Field) : (b.setText s f).Sided := by
  cases f <;> exact sided.congr rfl rfl sided.text

theorem Sided.addChar (sided : b.Sided) (f : Field) (max : Nat) (c : UInt8) : (b.addChar f max c).Sided := by
  rw [RestBody.addChar]
  split
  next => exact (sided.setText _ f).congr rfl rfl nofun
  next => exact sided.fail _

theorem Sided.beginValue (sided : b.Sided) (f : Field) (c : UInt8) : (b.beginValue f c).Sided := by
  rw [RestBody.beginValue]
  repeat' split
  case h_1.isTrue => exact (sided.setText [] f).congr rfl rfl nofun
  all_goals exact sided.congr rfl rfl nofun

/-- One byte. -/
theorem Sided.step (sided : b.Sided) (c : UInt8) : (b.step c).Sided := by
  rw [RestBody.step]
  split
  case h_4 typed state =>
    simp only [stepName]
    repeat' split
    all_goals exact sided.congr rfl rfl nofun
  case h_6 f state =>
    split
    next => exact sided
    next => exact sided.beginValue f c
  case h_7 f typed state =>
    simp only [stepNull]
    repeat' split
    all_goals exact sided.congr rfl rfl nofun
  case h_8 f state =>
    split
    next => exact (sided.null f).afterValue c
    next => exact sided.fail _
  case h_9 f typed state =>
    split
    next =>
      simp only [stepWord]
      repeat' split
      all_goals exact sided.congr rfl rfl nofun
    next => exact sided.fail _
    next => exact sided.fail _
  case h_10 f word state =>
    split
    next => exact (sided.endWord f word).afterValue c
    next => exact sided.fail _
  case h_11 f state =>
    split
    next max string =>
      repeat' split
      -- A side is a word, so the string is of another member.
      case isTrue =>
        refine sided.congr rfl rfl fun g read side => ?_
        obtain rfl : f = g := Cs.strEnd.inj read
        rw [side] at string
        cases string
      case isFalse.isTrue => exact sided.congr rfl rfl nofun
      case isFalse.isFalse => exact sided.addChar f max c
    next => exact sided.fail _
    next => exact sided.fail _
  case h_12 f state =>
    split
    next max _ => exact sided.addChar f max c
    next => exact sided.fail _
    next => exact sided.fail _
  case h_13 f state =>
    split
    next => exact (sided.setField (sided.text f state)).afterValue c
    next => exact sided.fail _
  case h_15 f state =>
    repeat' split
    case isTrue => exact sided.congr rfl rfl sided.text
    case isFalse.isTrue => exact (sided.endNum f).afterValue c
    case isFalse.isFalse => exact sided.fail _
  case h_16 state => exact sided.afterValue c
  -- The other states read no value.
  all_goals
    repeat' split
    all_goals first
      | exact sided
      | exact sided.congr rfl rfl nofun

theorem Sided.parse (sided : b.Sided) {buf : Bytes} {complete : Bool} (parsed : b.parse buf = .ok (complete, b')) :
    b'.Sided := by
  have folded : (buf.foldl RestBody.step b).Sided := by
    clear parsed
    induction buf generalizing b with
    | nil => exact sided
    | cons c buf inductionHypothesis => exact inductionHypothesis (sided.step c)
  simp only [RestBody.parse] at parsed
  split at parsed
  next => cases parsed
  next =>
    split at parsed
    next => cases parsed
    next => cases parsed; exact folded
    next => cases parsed; exact folded

theorem Sided.reset : reset.Sided where
  side := nofun
  text := nofun

end RestBody

/-- What `MarketSide::insert_order` asserts of an order. -/
structure Order.Insertable (o : Order) : Prop where
  level : o.level = none
  ticks : o.ticks ≠ 0
  resdLots : 0 < o.resdLots
  execLots : o.execLots ≤ o.lots
  lots : 0 < o.lots
  minLots : 0 ≤ o.minLots

namespace App

variable {app app' : App} {a : Symbol} {m : Int} {ref : Bytes} {side : Side} {lots ticks minLots now busDay : Int}

/-- The new order of a call of `create_order`, and the state when its matches are made. -/
def matchPhase (app : App) (accnt : Symbol) (marketId : Int) (ref : Bytes) (side : Side) (lots : Int) (ticks : Int)
    (minLots : Int) (now : Int) : Option (OrderPtr × App) :=
  let (p, e, app) := app.place accnt marketId ref side lots ticks minLots now
  (app.matchOrders accnt marketId p now ((Response.empty.insertOrder p).insertExec e)).map fun (app, _) => (p, app)

/-- What the book and the commit phase rely on, once the matches are made. -/
structure BookReady (app : App) (accnt : Symbol) (marketId : Int) (ref : Bytes) (side : Side) (lots : Int) (ticks : Int)
    (minLots : Int) (now : Int) : Prop where
  matches_ : ∀ p app', app.matchPhase accnt marketId ref side lots ticks minLots now = some (p, app') →
    ∀ x ∈ app'.matches_, 0 < x.lots
  insertable : ∀ p app', app.matchPhase accnt marketId ref side lots ticks minLots now = some (p, app') →
    ¬ (app'.order p).done → (app'.order p).Insertable

/-- The orders of the opposite side that a new order reaches: those at its price or better, as long as what comes before
them is less than it wants. -/
def reached (app : App) (marketId : Int) (side : Side) (lots : Int) (ticks : Int) : List OrderPtr :=
  let eligible := ((app.market marketId).side side.opposite).orders.filter fun q =>
    if side = .buy then (app.order q).ticks ≤ ticks else ticks ≤ (app.order q).ticks
  (Greedy.reach lots (eligible.map fun q => (q, (app.order q).resdLots))).map Prod.fst

theorem matchPhase_spec (inv : app.Inv) {o : Order} (incoming : o = app.incoming a m ref side lots ticks minLots now) :
    ∃ app₂, app.matchPhase a m ref side lots ticks minLots now = some (app.heap.orders.fresh, app₂) ∧
      Staged app m o now (app.incomingFills m o) app₂ := by
  obtain ⟨app₁, place, view₁, execs₁, matches₁, pointers₁⟩ := place_spec ⟨inv.matches_, inv.execs_⟩ incoming
  have sesss₁ : app₁.sesss = app.sesss := congrArg (fun placed : OrderPtr × ExecPtr × App => placed.2.2.sesss) place.symm
  obtain ⟨app₂, resp, matched, staged, -⟩ := staged (a := a) (fun q member => inv.live.present member) view₁ execs₁
    matches₁ pointers₁ (fun f member => by rw [sesss₁]; exact inv.live.known (mem_fillsOf member).1)
    ((Response.empty.insertOrder app.heap.orders.fresh).insertExec app.execs.fresh)
  refine ⟨app₂, ?_, staged⟩
  rw [matchPhase, place]
  simp only [matched]
  rfl

/-! ### The orders that are reached -/

section Reached

variable {o : Order}

/-- On sides that are in order, the orders that are reached are the first ones of those that the match phase walks. -/
theorem reached_eq (inv : app.Inv) (incoming : o = app.incoming a m ref side lots ticks minLots now) :
    app.reached m side lots ticks =
      (Greedy.reach o.resdLots (offers app.heap o (direct o) (app.makers m o))).map Prod.fst := by
  have eligible : (app.makers m o).takeWhile (fun q => spread o (app.heap.order q) (direct o) ≤ 0) =
      (app.makers m o).filter fun q => Crosses o (app.heap.order q).ticks := takeWhile_crosses (inv.live.wf m _) rfl
  rw [offers, eligible, incoming]
  cases side <;> rfl

/-- What the walk offers of the orders that are reached is what they have open. -/
theorem reached_open (inv : app.Inv) (incoming : o = app.incoming a m ref side lots ticks minLots now) :
    (∀ q ∈ app.reached m side lots ticks, 0 < (app.order q).resdLots) ↔
      ∀ x ∈ Greedy.reach o.resdLots (offers app.heap o (direct o) (app.makers m o)), 0 < x.2 := by
  rw [reached_eq inv incoming, List.forall_mem_map]
  have offered : ∀ x ∈ Greedy.reach o.resdLots (offers app.heap o (direct o) (app.makers m o)),
      x.2 = (app.order x.1).resdLots := fun x inside =>
    (mem_offers (show (x.1, x.2) ∈ _ from (Greedy.reach_initial _ _).subset inside)).2.1
  exact forall₂_congr fun x inside => by rw [offered x inside]

variable (inv : app.Inv) (incoming : o = app.incoming a m ref side lots ticks minLots now) (positive : 0 < lots)

include inv incoming positive

/-- If every match has positive lots, then so has every order that is reached. -/
theorem open_of_fills (fills : ∀ f ∈ app.incomingFills m o, 0 < f.lots) :
    ∀ q ∈ app.reached m side lots ticks, 0 < (app.order q).resdLots := by
  have wanted : 0 ≤ o.resdLots := by rw [incoming]; exact positive.le
  apply (reached_open inv incoming).mpr
  apply Greedy.reach_positive wanted
  rw [← fillsOf_allocations app.heap (app.makers m o) o (app.view.maxId m + 1) (app.execs.fresh + 1)]
  exact List.forall_mem_map.mpr fills

/-- Orders with open lots are filled in part or in full, once each, and for no more than the new order has. -/
theorem fills_of_open (openLots : ∀ q ∈ app.reached m side lots ticks, 0 < (app.order q).resdLots) :
    (∀ f ∈ app.incomingFills m o, 0 < f.lots) ∧
      (app.incomingFills m o).length = (app.reached m side lots ticks).length ∧
      0 ≤ ((app.deals m o).map Deal.lots).sum ∧ ((app.deals m o).map Deal.lots).sum ≤ o.lots := by
  have fresh : o.resdLots = o.lots ∧ o.lots = lots := by rw [incoming]; exact ⟨rfl, rfl⟩
  have wanted : 0 ≤ o.resdLots := by omega
  have offered := (reached_open inv incoming).mp openLots
  have allocations := fillsOf_allocations app.heap (app.makers m o) o (app.view.maxId m + 1) (app.execs.fresh + 1)
  obtain ⟨same, length⟩ := Greedy.fill_reach wanted offered
  refine ⟨fun f member => ?_, ?_, ?_⟩
  · have inside := List.mem_map_of_mem (f := fun f : Fill => (f.maker, f.lots)) member
    rw [incomingFills, allocations, ← same] at inside
    exact Greedy.fill_positive wanted offered inside
  · have fills := congrArg List.length allocations
    rw [List.length_map, length] at fills
    rw [incomingFills, fills, reached_eq inv incoming, List.length_map]
  · have nonneg := Greedy.total_nonneg offered
    have total := Greedy.total_fill wanted offered
    rw [same] at total
    rw [sum_deals, ← fresh.1, total]
    omega

end Reached

/-- The quantities of an order that the book takes. -/
theorem Staged.insertable (inv : app.Inv) (positive : 0 < lots) (nonneg : 0 ≤ minLots) (priced : ticks ≠ 0)
    (openLots : ∀ q ∈ app.reached m side lots ticks, 0 < (app.order q).resdLots) {o : Order}
    (incoming : o = app.incoming a m ref side lots ticks minLots now) {app₂ : App}
    (staged : Staged app m o now (app.incomingFills m o) app₂) (notDone : ¬ (app₂.order app.heap.orders.fresh).done) :
    (app₂.order app.heap.orders.fresh).Insertable := by
  have order₂ : app₂.order app.heap.orders.fresh = filled o now (app.incomingFills m o) := by
    rw [App.order, show app₂.heap = _ from congrArg View.heap staged.view, Heap.order_newOrder_self]
  obtain ⟨-, -, total, enough⟩ := fills_of_open inv incoming positive openLots
  have filledSound : (filled o now (app.incomingFills m o)).Sound := filled_sound incoming total enough
  rw [order₂] at notDone ⊢
  have open_ : (filled o now (app.incomingFills m o)).resdLots ≠ 0 := fun zero => notDone (decide_eq_true zero)
  obtain ⟨sumLots, sumCost, lastLots, lastTicks, state, modified, after⟩ := filled_eq o now (app.incomingFills m o)
  exact
    { level := by rw [filled_level, incoming]; rfl
      ticks := by rw [filled_same.ticks, incoming]; exact priced
      resdLots := lt_of_le_of_ne filledSound.resdLots open_.symm
      execLots := filledSound.within
      lots := by rw [after, incoming]; exact positive
      minLots := by rw [after, incoming]; exact nonneg }

theorem bookReady (inv : app.Inv) (positive : 0 < lots) (nonneg : 0 ≤ minLots) (priced : ticks ≠ 0)
    (openLots : ∀ q ∈ app.reached m side lots ticks, 0 < (app.order q).resdLots) :
    app.BookReady a m ref side lots ticks minLots now := by
  obtain ⟨o, incoming⟩ : ∃ o, o = app.incoming a m ref side lots ticks minLots now := ⟨_, rfl⟩
  obtain ⟨app₂, matched, staged⟩ := matchPhase_spec inv incoming
  constructor
  · intro p app' here
    cases here.symm.trans matched
    obtain ⟨fills, -⟩ := fills_of_open inv incoming positive openLots
    rw [staged.matches_]
    exact List.forall_mem_map.mpr fills
  · intro p app' here notDone
    cases here.symm.trans matched
    exact staged.insertable inv positive nonneg priced openLots incoming notDone

/-- A call whose matches have positive lots reaches only orders with open lots. -/
theorem BookReady.reached (inv : app.Inv) (positive : 0 < lots)
    (ready : app.BookReady a m ref side lots ticks minLots now) :
    ∀ q ∈ app.reached m side lots ticks, 0 < (app.order q).resdLots := by
  obtain ⟨o, incoming⟩ : ∃ o, o = app.incoming a m ref side lots ticks minLots now := ⟨_, rfl⟩
  obtain ⟨app₂, matched, staged⟩ := matchPhase_spec inv incoming
  have fills := ready.matches_ _ _ matched
  rw [staged.matches_] at fills
  exact open_of_fills inv incoming positive fun f member => fills _ (List.mem_map_of_mem member)

/-- A call that no check turns down commits if the queue has room for the reports of its order and its fills. -/
theorem createOrder_accepted (inv : app.Inv) (checked : app.admission a m ref lots minLots busDay = none) {o : Order}
    (incoming : o = app.incoming a m ref side lots ticks minLots now) :
    (∃ resp app', app.createOrder a m ref side lots ticks minLots now busDay = .ok resp app' ∧
        1 + 2 * (app.incomingFills m o).length ≤ app.mq.reserve) ∨
      ∃ e app', app.createOrder a m ref side lots ticks minLots now busDay = .throw e app' ∧ app'.view ≠ app.view ∧
        ¬ 1 + 2 * (app.incomingFills m o).length ≤ app.mq.reserve := by
  have created := createOrder_spec inv a m ref side lots ticks minLots now busDay
  rw [← incoming] at created
  have reports : (newReports app o now (app.incomingFills m o)).length = 1 + 2 * (app.incomingFills m o).length := by
    rw [newReports, List.length_cons, length_execs, Nat.add_comm]
  generalize app.createOrder a m ref side lots ticks minLots now busDay = outcome at created
  cases created with
  | rejected refused => rw [checked] at refused; cases refused
  | unjournaled checked full restored =>
    have short := MsgQueue.createExecs_eq_none.mp full
    refine .inr ⟨_, _, rfl, fun same => ?_, by omega⟩
    -- The ids that were given out are gone.
    have given : app.view.maxId m = app.view.maxId m + 1 + 2 * (app.incomingFills m o).length :=
      (congrFun (congrArg View.maxId (restored.view.symm.trans same)) m).symm.trans (update_self _ _ _)
    omega
  | committed checked opened commits matches_ execs_ ledger response =>
    refine .inl ⟨_, _, rfl, ?_⟩
    by_contra short
    have full := MsgQueue.createExecs_eq_none.mpr (show app.mq.reserve < (newReports app o now (app.incomingFills m o)).length by omega)
    rw [newReports, opened.journal] at full
    cases full

/-- The quantities are sound, the orders that are reached have open lots, and the queue has room. -/
def Sufficient (app : App) (m : Int) (side : Side) (lots ticks minLots : Int) : Prop :=
  0 < lots ∧ 0 ≤ minLots ∧ ticks ≠ 0 ∧ (∀ q ∈ app.reached m side lots ticks, 0 < (app.order q).resdLots) ∧
    1 + 2 * (app.reached m side lots ticks).length ≤ app.mq.reserve

/-- A call that no check turns down commits, and is fit for the book exactly when this is given, or it throws and leaves a trace,
and this is not given. -/
theorem createOrder_fit (inv : app.Inv) (checked : app.admission a m ref lots minLots busDay = none) (side : Side) (ticks now : Int) :
    (∃ resp app', app.createOrder a m ref side lots ticks minLots now busDay = .ok resp app' ∧
        ((0 < lots ∧ 0 ≤ minLots ∧ ticks ≠ 0) ∧ app.BookReady a m ref side lots ticks minLots now ↔
          app.Sufficient m side lots ticks minLots)) ∨
      ∃ e app', app.createOrder a m ref side lots ticks minLots now busDay = .throw e app' ∧ app'.view ≠ app.view ∧
        ¬ app.Sufficient m side lots ticks minLots := by
  obtain ⟨o, incoming⟩ : ∃ o, o = app.incoming a m ref side lots ticks minLots now := ⟨_, rfl⟩
  cases createOrder_accepted inv checked incoming with
  | inl accepted =>
    obtain ⟨resp, app', done, journaled⟩ := accepted
    refine .inl ⟨resp, app', done, ?_⟩
    constructor
    · rintro ⟨⟨positive, nonneg, priced⟩, ready⟩
      have openLots := ready.reached inv positive
      obtain ⟨-, length, -⟩ := fills_of_open inv incoming positive openLots
      rw [length] at journaled
      exact ⟨positive, nonneg, priced, openLots, journaled⟩
    · rintro ⟨positive, nonneg, priced, openLots, -⟩
      exact ⟨⟨positive, nonneg, priced⟩, bookReady inv positive nonneg priced openLots⟩
  | inr full =>
    obtain ⟨e, app', threw, touched, short⟩ := full
    refine .inr ⟨e, app', threw, touched, ?_⟩
    rintro ⟨positive, -, -, openLots, room⟩
    obtain ⟨-, length, -⟩ := fills_of_open inv incoming positive openLots
    rw [length] at short
    exact short room

/-- The checks of `create_order` do not see whether the session exists. -/
theorem admission_ensureSess (app : App) (a : Symbol) (m : Int) (ref : Bytes) (lots minLots busDay : Int) :
    (app.ensureSess a).admission a m ref lots minLots busDay = app.admission a m ref lots minLots busDay := by
  have refs : ((app.ensureSess a).sess a).refIdx = (app.sess a).refIdx :=
    congrFun (congrArg View.refs (view_ensureSess a)) a
  simp only [admission, Sess.exists, refs]
  rfl

theorem minLots_of_admission (checked : app.admission a m ref lots minLots busDay = none) : minLots ≤ lots := by
  simp only [admission] at checked
  split at checked
  next => cases checked
  next =>
    split at checked
    next => cases checked
    next =>
      split at checked
      next => cases checked
      next accepted => omega

end App

namespace RestServ

open App

variable {instrs : Symbol → Option Int} {app : App} {accnt : Bytes} {path : OrderPath} {body : RestBody} {now busDay : Int}

theorem sided_appendBody {bufs : List Bytes} {isPartial isPartial' : Bool} {b b' : RestBody} (sided : b.Sided)
    (appended : appendBody bufs isPartial b = .ok (isPartial', b')) : b'.Sided := by
  induction bufs generalizing isPartial b with
  | nil => cases appended; exact sided
  | cons buf bufs inductionHypothesis =>
    rw [appendBody] at appended
    split at appended
    next => cases appended
    next parsed => exact inductionHypothesis (sided.parse parsed) appended

theorem sided_readBody {bufs : List Bytes} (read : readBody bufs = .ok body) : body.Sided := by
  rw [readBody] at read
  split at read
  next => cases read
  next appended =>
    split at read
    next => cases read
    next => cases read; exact sided_appendBody .reset appended

theorem side_of_valid (valid : body.valid path.required OrderPath.optional) : .side ∈ body.fields := by
  have required : .side ∈ path.required := by cases path <;> simp [OrderPath.required]
  rw [RestBody.valid, Bool.and_eq_true, List.all_eq_true] at valid
  exact of_decide_eq_true (valid.1 _ required)

/-- The market of a request. -/
def target (instrs : Symbol → Option Int) (path : OrderPath) (body : RestBody) : Option Int :=
  (instrs (path.terms body).1).map fun id => toMarketId id (maybeIsoToJd (path.terms body).2)

/-- An order that is accepted is fit for the book, and a request that is not accepted leaves no trace. -/
def Fit (instrs : Symbol → Option Int) (app : App) (accnt : Bytes) (path : OrderPath) (body : RestBody) (now : Int)
    (busDay : Int) : Prop :=
  match orderRequest instrs app accnt path body now busDay with
  | .ok _ _ =>
    (0 < body.lots ∧ 0 ≤ body.minLots ∧ body.minLots ≤ body.lots ∧ body.ticks ≠ 0) ∧
      ∀ m ∈ target instrs path body, ∀ side ∈ body.side,
        (app.ensureSess (.assign accnt)).BookReady (.assign accnt) m body.ref side body.lots body.ticks body.minLots now
  | .throw _ app' => app'.view = app.view
  | .fault => False

/-- No market is found, or a check of `create_order` turns the order down. -/
def TurnedDown (instrs : Symbol → Option Int) (app : App) (accnt : Bytes) (path : OrderPath) (body : RestBody)
    (busDay : Int) : Prop :=
  ∀ m ∈ target instrs path body, (app.markets.find m).isSome →
    (app.admission (.assign accnt) m body.ref body.lots body.minLots busDay).isSome

/-- The resting orders that the new order reaches have positive open lots. -/
def ReachesOpen (instrs : Symbol → Option Int) (app : App) (path : OrderPath) (body : RestBody) : Prop :=
  ∀ m ∈ target instrs path body, ∀ side ∈ body.side,
    ∀ q ∈ app.reached m side body.lots body.ticks, 0 < (app.order q).resdLots

/-- The queue has room for the report of a new order and for the two of each match. -/
def Room (instrs : Symbol → Option Int) (app : App) (path : OrderPath) (body : RestBody) : Prop :=
  ∀ m ∈ target instrs path body, ∀ side ∈ body.side,
    1 + 2 * (app.reached m side body.lots body.ticks).length ≤ app.mq.reserve

/-- The instruments of the examples. -/
def eurusd (symbol : Symbol) : Option Int := if symbol = .assign (bytes "EURUSD") then some 1 else none

end RestServ

end Swirly
