import Swirly.Verified.Arithmetic.Values

/-!
# Arithmetic over runs

The calls of a run compute in 64 bits as they would without a bound when prices are within a limit, and what each account and each
price takes on stays within 64 bits at that limit.  The engine does not check this, and a spread between the extreme prices wraps.
-/

namespace Swirly.App

open Function MarketSide

variable {limit : Int} {app : App} {a : Symbol} {m : Int} {ref : Bytes} {side : Side} {lots ticks minLots now busDay : Int} {o : Order}

/-! ## Orders -/

section Create

variable {app₁ app₂ app₃ : App}

/-- The match phase of a call. -/
theorem Exact.matchOrdersValues (kept : Exact limit app) (small : limit < 2 ^ 62) (priced : o.Priced limit)
    (view : app₁.view = ((app.view.allocId m).newOrder o).newExec (.make o o.id now)) :
    ∀ x ∈ app₁.matchOrdersValues m app.heap.orders.fresh, Unwrapped x := by
  have heap : app₁.heap = app.heap.newOrder o := congrArg View.heap view
  have order : app₁.order app.heap.orders.fresh = o := by
    rw [App.order, heap]
    exact OrdMap.get_put_self _ _ _
  have makers : app₁.makers m o = app.makers m o := by
    simp only [App.makers, view]
    rfl
  refine matchOrdersValues_unwrapped priced kept.bounded.positive small order makers (fun q member => ?_)
    fun q member => kept.inv.makers_priced kept.bounded member
  rw [heap]
  exact Heap.order_newOrder_ne _ _ (OrdMap.ne_fresh (kept.inv.live.present member))

/-- The insertion of what is left of the order. -/
theorem Exact.restValues (kept : Exact limit app) (small : limit < 2 ^ 62) (fits : app.Fits limit a m side lots ticks)
    (incoming : o = app.incoming a m ref side lots ticks minLots now) (staged : Staged app m o now (app.incomingFills m o) app₂) :
    ∀ x ∈ app₂.restValues m app.heap.orders.fresh, Unwrapped x := by
  obtain ⟨inv, sound, bounded⟩ := kept
  have fresh : o.resdLots = o.lots ∧ o.lots = lots ∧ o.side = side ∧ o.ticks = ticks := by
    rw [incoming]
    exact ⟨rfl, rfl, rfl, rfl⟩
  have heap : app₂.heap = app.heap.newOrder (filled o now (app.incomingFills m o)) := congrArg View.heap staged.view
  have sides : app₂.view.side = app.view.side := by rw [staged.view]
  have order : app₂.heap.order app.heap.orders.fresh = filled o now (app.incomingFills m o) := by
    rw [heap, Heap.order_newOrder_self]
  have priced := filled_priced inv sound bounded fits.positive fits.price (fits.alone bounded) incoming
  have same : (filled o now (app.incomingFills m o)).Same o := filled_same
  have ownSide : (app₂.heap.order app.heap.orders.fresh).side = side := by rw [order, same.side, fresh.2.2.1]
  have ownTicks : (app₂.heap.order app.heap.orders.fresh).ticks = ticks := by rw [order, same.ticks, fresh.2.2.2]
  -- No more of the order is left than its lots.
  have left : (filled o now (app.incomingFills m o)).resdLots ≤ lots := by
    obtain ⟨-, -, resdLots⟩ := incoming_filled o now incoming
    obtain ⟨-, nonneg, -⟩ := Sound.fills (m := m) inv sound fresh.1 (by rw [fresh.2.1]; exact fits.positive)
    omega
  rw [App.restValues]
  split
  · exact List.forall_mem_nil _
  · have inserted := insertLevelValues_unwrapped (p := app.heap.orders.fresh) (h := app₂.heap) inv.live bounded small
      (by rw [heap]; rfl) ownSide (by rw [order]; exact priced.ticks) (by rw [order]; exact priced.resdLots) (m := m)
      (by
        rw [ownTicks, order]
        have level : app.view.heap.openLots (Order.AtPrice m side ticks) + lots < 2 ^ 63 := fits.level
        omega)
    rw [← sides] at inserted
    rw [show (app₂.order app.heap.orders.fresh).side = side from ownSide]
    exact inserted

/-- What is left of the order is taken back. -/
theorem Exact.unrestValues (kept : Exact limit app) (fits : app.Fits limit a m side lots ticks)
    (incoming : o = app.incoming a m ref side lots ticks minLots now) {h : Heap} {sides : Int → Side → MarketSide}
    (placed : Placed app a m o now (app.incomingFills m o) h sides) (heap : app₃.heap = h) :
    ∀ x ∈ app₃.unrestValues app.heap.orders.fresh, Unwrapped x := by
  obtain ⟨inv, sound, bounded⟩ := kept
  have resting := Placed.bounded inv sound bounded fits incoming placed
  rw [App.unrestValues]
  split
  · exact List.forall_mem_nil _
  next open_ =>
    obtain ⟨level, order⟩ := placed.order
    rw [App.order, heap, order] at open_
    rw [heap]
    -- The order is in no session yet, but the book is that of a state in which it is.
    obtain ⟨v, view⟩ : ∃ v : View, v = { app.view with
      heap := h, side := sides
      orders := openedOrders app a o now (app.incomingFills m o)
      refs := openedRefs app a o now (app.incomingFills m o) } := ⟨_, rfl⟩
    have live : v.Live := by
      rw [view]
      exact placed.live
    have listed : app.heap.orders.fresh ∈ (v.side m o.side).orders := by
      rw [view]
      exact (placed.listed _ _ _).mpr (.inr ⟨rfl, rfl, rfl, fun none => open_ (decide_eq_true none)⟩)
    have removed := removeOrderValues_unwrapped live (by rw [view]; exact resting) listed
    rw [view] at removed
    exact removed

theorem commitOrderValues_eq {p : OrderPtr} {e : ExecPtr} {app₅ : App} (first : app₅ = App.pushExecFront
      (if (app.order p).done then app else app.setSess a ((app.sess a).insertOrder p (app.order p))) a e) :
    app.commitOrderValues a m p e now = commitMatchesValues a m now app₅.matches_ app₅ := by
  rw [first]
  rfl

theorem Exact.createOrderValues (kept : Exact limit app) (small : limit < 2 ^ 62) (fits : app.Fits limit a m side lots ticks)
    (ref : Bytes) (minLots now busDay : Int) :
    ∀ x ∈ app.createOrderValues a m ref side lots ticks minLots now busDay, Unwrapped x := by
  obtain ⟨inv, sound, bounded⟩ := kept
  rw [App.createOrderValues]
  cases checked : app.admission a m ref lots minLots busDay with
  | some e => exact List.forall_mem_nil _
  | none =>
    -- The phases are those of `createOrder_spec`.
    obtain ⟨o, incoming⟩ : ∃ o, o = app.incoming a m ref side lots ticks minLots now := ⟨_, rfl⟩
    have new : New app a m o := incoming ▸ incoming_new
    obtain ⟨app₁, place, view₁, execs₁, matches₁, pointers₁⟩ := place_spec ⟨inv.matches_, inv.execs_⟩ incoming
    have sesss₁ : app₁.sesss = app.sesss := congrArg (fun placed : OrderPtr × ExecPtr × App => placed.2.2.sesss) place.symm
    obtain ⟨app₂, resp, matched, staged, told⟩ := staged (a := a) (fun q member => inv.live.present member) view₁ execs₁
      matches₁ pointers₁ (fun f member => by rw [sesss₁]; exact inv.live.known (mem_fillsOf member).1)
      ((Response.empty.insertOrder app.heap.orders.fresh).insertExec app.execs.fresh)
    simp only [place, matched]
    have kept : Exact limit app := ⟨inv, sound, bounded⟩
    have priced := incoming_priced fits.positive.le fits.price (fits.alone bounded) incoming
    rw [List.forall_mem_append]
    refine ⟨kept.matchOrdersValues small priced view₁, ?_⟩
    obtain ⟨prepared, made⟩ : ∃ prepared, prepared =
      if (!app₂.matches_.isEmpty) = true then app₂.ensurePosn a m else app₂ := ⟨_, rfl⟩
    have staged : Staged app m o now (app.incomingFills m o) prepared := by
      rw [made]
      split
      next => exact ⟨(view_ensurePosn a m).trans staged.view, staged.execs, staged.matches_, staged.execs_⟩
      next => exact staged
    rw [← made, List.forall_mem_append]
    refine ⟨kept.restValues small fits incoming staged, ?_⟩
    obtain ⟨app₃, h, sides, rested, view₃, placed, execs₃, matches₃, pointers₃, -⟩ := rest_spec inv new staged
    -- The journal is asked for all executions at once, and the order is taken back when there is no room.
    have journal : app₃.execs_.map app₃.exec = newReports app o now (app.incomingFills m o) := by
      rw [← staged.journal, pointers₃]
      exact List.map_congr_left fun e _ => congrArg (fun execs : Store Exec => execs.get e) execs₃
    have mq₃ : app₃.mq = app.mq := (congrArg View.mq view₃).trans (congrArg View.mq staged.view)
    rw [rested]
    simp only [journal, mq₃]
    cases posted : app.mq.createExecs (newReports app o now (app.incomingFills m o)) with
    | none => exact kept.unrestValues fits incoming placed (congrArg View.heap view₃)
    | some mq =>
      obtain ⟨app₅, v, first, view₅, opened, execs₅, matches₅⟩ := opened_spec (a := a) staged view₃ placed posted
      have matches_ : app₅.matches_ = (app.incomingFills m o).map fun f => f.toMatch app.heap m := by
        rw [matches₅, matches₃, staged.matches_]
      have execs : app₅.execs = app.execs.allocs (newReports app o now (app.incomingFills m o)) :=
        execs₅.trans (execs₃.trans staged.execs)
      have live : app₅.view.Live := by
        rw [view₅, opened.view]
        exact opened.placed.live
      show ∀ x ∈ ({ app₃ with mq } : App).commitOrderValues a m app.heap.orders.fresh app.execs.fresh now, Unwrapped x
      rw [commitOrderValues_eq first, matches_]
      have reserved := opened.bounded inv sound bounded fits incoming
      rw [← view₅] at reserved
      refine commitMatchesValues_unwrapped live reserved (ready inv execs view₅ opened)
        (fun x member => (opened.fits inv sound fits.positive incoming x member).1) ?_
      rw [view₅]
      exact opened.dealt inv

end Create

/-! ## Trades -/

/-- A trade goes to the position of the counter-party and then to that of the account. -/
theorem Exact.createTradeValues {cpty : Symbol} (kept : Exact limit app) (fits : app.FitsTrade limit a m lots ticks cpty)
    (ref : Bytes) (side : Side) (liqInd : LiqInd) (created : Int) :
    ∀ x ∈ app.createTradeValues a m ref side lots ticks liqInd cpty created, Unwrapped x := by
  have positive := kept.bounded.positive
  have posn (b : Symbol) : app.posn (b, m) = app.view.posn b m := rfl
  have priced (b : Symbol) : (app.posn (b, m)).Priced limit := kept.bounded.posns b m
  -- The lots that are open only leave less room.
  have room {b : Symbol} {more : Int} (less : (app.exposure b m + more) * limit < 2 ^ 63) :
      ((app.posn (b, m)).grossLots + more) * limit < 2 ^ 63 := by
    have openLots := kept.bounded.openLots_nonneg (Order.OfAccnt b m)
    have exposure : app.exposure b m = (app.posn (b, m)).grossLots + app.view.heap.openLots (Order.OfAccnt b m) := rfl
    exact lt_of_le_of_lt (mul_le_mul_of_nonneg_right (by omega) positive.le) less
  have own := (priced a).addTradeValues positive fits.nonneg fits.price (room fits.account)
  rw [App.createTradeValues]
  dsimp only
  rw [List.forall_mem_append]
  constructor
  · have bought := (priced a).addTradeValues positive fits.nonneg fits.price (room fits.account) .buy
    simp only [List.forall_mem_cons]
    exact ⟨bought _ (by simp [Posn.addTradeValues, Posn.addBuyValues]), bought _ (by simp [Posn.addTradeValues, Posn.addBuyValues]),
      List.forall_mem_nil _⟩
  · split
    · exact List.forall_mem_nil _
    · split
      · exact own side
      next paired =>
        have fitsPaired := fits.paired (Bool.eq_false_iff.mpr paired)
        rw [List.forall_mem_append]
        constructor
        · refine (priced cpty).addTradeValues positive fits.nonneg fits.price (room ?_) side.opposite
          have nonneg := fits.nonneg
          have less : lots ≤ if cpty = a then 2 * lots else lots := by split <;> omega
          exact lt_of_le_of_lt (mul_le_mul_of_nonneg_right (Int.add_le_add_left less _) positive.le) fitsPaired
        · split
          next same =>
            -- The trade with itself has been added once already.
            have filed := (priced a).addTrade positive fits.nonneg fits.price side.opposite
            refine filed.addTradeValues positive fits.nonneg fits.price ?_ side
            rw [same, if_pos rfl, Int.two_mul] at fitsPaired
            rw [Posn.grossLots_addTrade, Int.add_assoc]
            exact room fitsPaired
          next other => exact own side

/-! ## Runs -/

theorem Exact.values (kept : Exact limit app) (small : limit < 2 ^ 62) {op : Op} (within : Limited limit app op) :
    ∀ x ∈ app.values op, Unwrapped x := by
  -- The session is made on first use, and this changes nothing in the view.
  have ensured (b : Symbol) : Exact limit (app.ensureSess b) :=
    ⟨kept.inv.ensureSess b, by rw [view_ensureSess]; exact kept.sound, by rw [view_ensureSess]; exact kept.bounded⟩
  cases op with
  | createOrder b n ref side lots ticks minLots now busDay =>
    rw [App.values]
    split
    · exact (ensured b).createOrderValues small (Fits.congr (view_ensureSess b) within) ref minLots now busDay
    · exact List.forall_mem_nil _
  | createTrade b n ref side lots ticks liqInd cpty created =>
    rw [App.values]
    split
    · exact (ensured b).createTradeValues (FitsTrade.congr (view_ensureSess b) within) ref side liqInd created
    · exact List.forall_mem_nil _
  | sess | createMarket | updateMarket | changeOrder | archiveExec | archiveTrade | archiveTrades | pop => exact List.forall_mem_nil _

/-- The arithmetic is exact in every state of a run within a limit. -/
theorem values_exact {capacity maxExecs : Nat} {ops : List Op} (positive : 0 < limit) (small : limit < 2 ^ 62)
    (run : Run App.step (Limited limit) (.make capacity maxExecs) ops app) {op : Op} (within : Limited limit app op) :
    ∀ x ∈ app.values op, Unwrapped x :=
  ((Exact.make positive capacity maxExecs).run run).values small within

instance (app : App) (limit : Int) (a : Symbol) (m : Int) (side : Side) (lots ticks : Int) :
    Decidable (app.Fits limit a m side lots ticks) :=
  decidable_of_iff (0 < lots ∧ |ticks| ≤ limit ∧ (app.exposure a m + lots) * limit < 2 ^ 63 ∧
      app.heap.openLots (Order.AtPrice m side ticks) + lots < 2 ^ 63)
    ⟨fun fits => ⟨fits.1, fits.2.1, fits.2.2.1, fits.2.2.2⟩, fun fits => ⟨fits.positive, fits.price, fits.account, fits.level⟩⟩

instance (app : App) (limit : Int) (a : Symbol) (m lots ticks : Int) (cpty : Symbol) :
    Decidable (app.FitsTrade limit a m lots ticks cpty) :=
  decidable_of_iff (0 ≤ lots ∧ |ticks| ≤ limit ∧ (app.exposure a m + lots) * limit < 2 ^ 63 ∧
      (cpty.isEmpty = false → (app.exposure cpty m + if cpty = a then 2 * lots else lots) * limit < 2 ^ 63))
    ⟨fun fits => ⟨fits.1, fits.2.1, fits.2.2.1, fits.2.2.2⟩, fun fits => ⟨fits.nonneg, fits.price, fits.account, fits.paired⟩⟩

instance (limit : Int) (app : App) (op : Op) : Decidable (Limited limit app op) :=
  match op with
  | .createOrder a m _ side lots ticks _ _ _ => inferInstanceAs (Decidable (app.Fits limit a m side lots ticks))
  | .createTrade a m _ _ lots ticks _ cpty _ => inferInstanceAs (Decidable (app.FitsTrade limit a m lots ticks cpty))
  | .sess .. | .createMarket .. | .updateMarket .. | .changeOrder .. | .archiveExec .. | .archiveTrade .. | .archiveTrades ..
  | .pop => .isTrue trivial

theorem values_exact_match :
    let a : Symbol := .assign (bytes "MARAYL")
    let b : Symbol := .assign (bytes "GOSAYL")
    let m := toMarketId 1 0
    let op : Op := .createOrder b m [] .buy 5 (-7) 0 4 0
    ∃ app, Run App.step (Limited 1000) (App.make 8 8)
        [.createMarket 1 (.assign (bytes "EURUSD")) 0 0 0, .createTrade a m [] .buy 10 3 .none b 1,
          .createOrder a m [] .sell 4 (-9) 0 2 0, .createOrder a m [] .buy 4 (-20) 0 3 0] app ∧
      -36 ∈ app.values op ∧ ∀ x ∈ app.values op, Unwrapped x := by
  intro a b m op
  have made : ∃ app ∈ Run.exec App.step (Limited 1000) (App.make 8 8)
      [.createMarket 1 (.assign (bytes "EURUSD")) 0 0 0, .createTrade a m [] .buy 10 3 .none b 1,
        .createOrder a m [] .sell 4 (-9) 0 2 0, .createOrder a m [] .buy 4 (-20) 0 3 0],
      -36 ∈ app.values op ∧ Limited 1000 app op := by decide +kernel
  obtain ⟨app, done, value, within⟩ := made
  have run := Run.of_exec done
  exact ⟨app, run, value, values_exact (by decide) (by decide) run within⟩

/-- The quantities of a call have 64 bits, and those of an order are positive. -/
def Sized : Op → Prop
  | .createOrder _ _ _ _ lots ticks minLots _ _ => 0 < lots ∧ Unwrapped lots ∧ Unwrapped ticks ∧ Unwrapped minLots
  | .createTrade _ _ _ _ lots ticks _ _ _ => 0 < lots ∧ Unwrapped lots ∧ Unwrapped ticks
  | _ => True

instance (op : Op) : Decidable (Sized op) :=
  match op with
  | .createOrder _ _ _ _ lots ticks minLots _ _ =>
    inferInstanceAs (Decidable (0 < lots ∧ Unwrapped lots ∧ Unwrapped ticks ∧ Unwrapped minLots))
  | .createTrade _ _ _ _ lots ticks _ _ _ => inferInstanceAs (Decidable (0 < lots ∧ Unwrapped lots ∧ Unwrapped ticks))
  | .sess .. | .createMarket .. | .updateMarket .. | .changeOrder .. | .archiveExec .. | .archiveTrade .. | .archiveTrades ..
  | .pop => .isTrue trivial

/-- The best offer is far above the bid, and the spread wraps to one that crosses. -/
theorem spread_wraps :
    let a : Symbol := .assign (bytes "MARAYL")
    let b : Symbol := .assign (bytes "GOSAYL")
    let m := toMarketId 1 0
    let op : Op := .createOrder b m [] .buy 1 (-(2 ^ 63 - 1)) 0 3 0
    ∃ app, Run App.step (fun _ op => Sized op) (App.make 8 8)
        [.createMarket 1 (.assign (bytes "EURUSD")) 0 0 0, .createOrder a m [] .sell 1 (2 ^ 63 - 1) 0 2 0] app ∧
      Sized op ∧ 2 ^ 64 - 2 ∈ app.values op ∧ ¬ Unwrapped (2 ^ 64 - 2) ∧ Int.bmod (2 ^ 64 - 2) (2 ^ 64) = -2 := by
  intro a b m op
  have made : ∃ app ∈ Run.exec App.step (fun _ op => Sized op) (App.make 8 8)
      [.createMarket 1 (.assign (bytes "EURUSD")) 0 0 0, .createOrder a m [] .sell 1 (2 ^ 63 - 1) 0 2 0],
      Sized op ∧ 2 ^ 64 - 2 ∈ app.values op ∧ ¬ Unwrapped (2 ^ 64 - 2) ∧ Int.bmod (2 ^ 64 - 2) (2 ^ 64) = -2 := by decide +kernel
  obtain ⟨app, done, facts⟩ := made
  exact ⟨app, Run.of_exec done, facts⟩

end Swirly.App
