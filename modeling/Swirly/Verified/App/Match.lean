import Mathlib
import Swirly.Lib.Greedy
import Swirly.Verified.App.Live

/-!
# The match phase

The loop of `match_orders` allocates the taker's lots greedily over the makers whose prices cross, best first:
`matchLoop_eq`.  It makes the executions and the empty positions of the matches, and changes nothing else:
`matchOrders_spec`.
-/

namespace Swirly

open Function

/-- What the makers offer to the taker, up to the first one whose price does not cross. -/
def offers (h : Heap) (taker : Order) (direct : Direct) (makers : List OrderPtr) : List (OrderPtr × Int) :=
  (makers.takeWhile fun q => App.spread taker (h.order q) direct ≤ 0).map fun q => (q, (h.order q).resdLots)

theorem offers_cons (h : Heap) (taker : Order) (direct : Direct) (q : OrderPtr) (makers : List OrderPtr) :
    offers h taker direct (q :: makers) =
      if App.spread taker (h.order q) direct ≤ 0 then (q, (h.order q).resdLots) :: offers h taker direct makers
      else [] := by
  unfold offers
  rw [List.takeWhile_cons]
  by_cases crosses : App.spread taker (h.order q) direct ≤ 0 <;> simp [crosses]

/-- A match, with the totals that it brings the taker to. -/
structure Fill where
  maker : OrderPtr
  lots : Int
  sums : App.Sums
  /-- The id of the maker's trade; the taker's is the next one. -/
  makerId : Int
  /-- The address of the maker's trade; the taker's is the next one. -/
  makerTrade : ExecPtr

def App.Sums.add (sums : Sums) (lots : Int) (ticks : Int) : Sums :=
  { sumLots := sums.sumLots + lots, sumCost := sums.sumCost + cost lots ticks, lastLots := lots, lastTicks := ticks }

namespace Fill

variable (h : Heap) (taker : Order) (now : Int) (f : Fill)

def makerExec : Exec :=
  (Exec.make (h.order f.maker) f.makerId now).trade f.lots (h.order f.maker).ticks (f.makerId + 1) .maker taker.accnt

def takerExec : Exec :=
  (Exec.make taker (f.makerId + 1) now).tradeSum f.sums.sumLots f.sums.sumCost f.lots (h.order f.maker).ticks f.makerId
    .taker (h.order f.maker).accnt

def execs : List Exec := [f.makerExec h taker now, f.takerExec h taker now]

def trades : List ExecPtr := [f.makerTrade, f.makerTrade + 1]

def toMatch (marketId : Int) : Match :=
  { lots := f.lots, makerOrder := f.maker, makerTrade := f.makerTrade,
    makerPosn := ((h.order f.maker).accnt, marketId), takerTrade := f.makerTrade + 1 }

/-- The response after the match: the caller is told of its own trade, and of the maker when that is its own too. -/
def respond (takerAccnt : Symbol) (resp : Response) : Response :=
  (if (h.order f.maker).accnt = takerAccnt then (resp.insertOrder f.maker).insertExec f.makerTrade else resp).insertExec
    (f.makerTrade + 1)

/-- Number the allocations, from the ids after `id` and the addresses from `e` on. -/
def number : App.Sums → Int → ExecPtr → List (OrderPtr × Int) → List Fill
  | _, _, _, [] => []
  | sums, id, e, (q, lots) :: rest =>
    let sums := sums.add lots (h.order q).ticks
    { maker := q, lots, sums, makerId := id + 1, makerTrade := e } :: number sums (id + 2) (e + 2) rest

/-- The totals after the last of the fills. -/
def final (sums : App.Sums) (fs : List Fill) : App.Sums := (fs.getLast?.map Fill.sums).getD sums

theorem final_cons (sums : App.Sums) (fs : List Fill) : final sums (f :: fs) = final f.sums fs := by
  cases fs with
  | nil => rfl
  | cons g fs => simp [final, List.getLast?_cons]

@[simp] theorem number_nil (sums : App.Sums) (id : Int) (e : ExecPtr) : number h sums id e [] = [] := rfl

theorem number_cons (sums : App.Sums) (id : Int) (e : ExecPtr) (q : OrderPtr) (lots : Int)
    (rest : List (OrderPtr × Int)) :
    number h sums id e ((q, lots) :: rest) =
      { maker := q, lots, sums := sums.add lots (h.order q).ticks, makerId := id + 1, makerTrade := e } ::
        number h (sums.add lots (h.order q).ticks) (id + 2) (e + 2) rest := rfl

/-- The fills are the allocations. -/
theorem number_allocations (sums : App.Sums) (id : Int) (e : ExecPtr) (xs : List (OrderPtr × Int)) :
    (number h sums id e xs).map (fun f => (f.maker, f.lots)) = xs := by
  induction xs generalizing sums id e with
  | nil => rfl
  | cons x xs inductionHypothesis =>
    obtain ⟨q, lots⟩ := x
    rw [number_cons, List.map_cons, inductionHypothesis]

end Fill

/-! ## Heaps that agree on the makers -/

section Congr

variable {h h' : Heap} {taker : Order} {now : Int}

theorem offers_congr {d : Direct} {makers : List OrderPtr} (agree : ∀ q ∈ makers, h'.order q = h.order q) :
    offers h' taker d makers = offers h taker d makers := by
  induction makers with
  | nil => rfl
  | cons q makers inductionHypothesis =>
    rw [offers_cons, offers_cons, agree q List.mem_cons_self,
      inductionHypothesis fun r member => agree r (List.mem_cons_of_mem _ member)]

theorem Fill.number_congr {sums : App.Sums} {id : Int} {e : ExecPtr} {xs : List (OrderPtr × Int)}
    (agree : ∀ x ∈ xs, h'.order x.1 = h.order x.1) : number h' sums id e xs = number h sums id e xs := by
  induction xs generalizing sums id e with
  | nil => rfl
  | cons x xs inductionHypothesis =>
    obtain ⟨q, lots⟩ := x
    have first : h'.order q = h.order q := agree _ List.mem_cons_self
    rw [number_cons, number_cons, first, inductionHypothesis fun y member => agree y (List.mem_cons_of_mem _ member)]

theorem Fill.execs_congr {f : Fill} (agree : h'.order f.maker = h.order f.maker) :
    f.execs h' taker now = f.execs h taker now := by
  simp only [execs, makerExec, takerExec, agree]

theorem Fill.toMatch_congr {f : Fill} {m : Int} (agree : h'.order f.maker = h.order f.maker) :
    f.toMatch h' m = f.toMatch h m := by
  simp only [toMatch, agree]

theorem Fill.respond_congr {f : Fill} {a : Symbol} (agree : h'.order f.maker = h.order f.maker) :
    f.respond h' a = f.respond h a := by
  funext resp
  simp only [respond, agree]

/-- The addresses of the trades follow one another. -/
theorem Fill.trades_number (sums : App.Sums) (id : Int) (e : ExecPtr) (xs : List (OrderPtr × Int)) :
    (number h sums id e xs).flatMap trades = (List.range (2 * xs.length)).map (e + ·) := by
  induction xs generalizing sums id e with
  | nil => rfl
  | cons x xs inductionHypothesis =>
    obtain ⟨q, lots⟩ := x
    rw [number_cons, List.flatMap_cons, inductionHypothesis, List.length_cons,
      show 2 * (xs.length + 1) = 2 + 2 * xs.length by omega, List.range_add, List.map_append, List.map_map]
    congr 1
    exact List.map_congr_left fun i _ => Nat.add_assoc e 2 i

end Congr

namespace App

/-- The effect of the loop for one allocation. -/
def matchOne (takerAccnt : Symbol) (marketId : Int) (taker : Order) (now : Int) :
    Sums × App × Response → OrderPtr × Int → Option (Sums × App × Response)
  | (sums, app, resp), (q, lots) =>
    let maker := app.order q
    let sums := sums.add lots maker.ticks
    match app.newMatch marketId taker q lots sums.sumLots sums.sumCost now with
    | none => none
    | some (m, app) =>
      let resp := if maker.accnt = takerAccnt then (resp.insertOrder q).insertExec m.makerTrade else resp
      some (sums, { app with execs_ := app.execs_ ++ [m.makerTrade, m.takerTrade], matches_ := app.matches_ ++ [m] },
        resp.insertExec m.takerTrade)

variable {app app' : App} {takerAccnt : Symbol} {marketId now : Int} {taker : Order}

theorem newMatch_heap {q : OrderPtr} {lots sumLots sumCost : Int} {m : Match}
    (made : app.newMatch marketId taker q lots sumLots sumCost now = some (m, app')) : app'.heap = app.heap := by
  simp only [newMatch] at made
  split at made
  next => cases made
  next =>
    cases made
    rfl

theorem matchOne_heap {sums sums' : Sums} {resp resp' : Response} {x : OrderPtr × Int}
    (done : matchOne takerAccnt marketId taker now (sums, app, resp) x = some (sums', app', resp')) :
    app'.heap = app.heap ∧ sums'.sumLots = sums.sumLots + x.2 := by
  simp only [matchOne] at done
  split at done
  next => cases done
  next m next made =>
    have kept := newMatch_heap made
    cases done
    exact ⟨kept, rfl⟩

/-- The loop allocates greedily. -/
theorem matchLoop_eq (direct : Direct) (makers : List OrderPtr) (sums : Sums) (resp : Response) :
    matchLoop takerAccnt marketId taker direct now makers sums app resp =
      (Greedy.fill (taker.resdLots - sums.sumLots) (offers app.heap taker direct makers)).foldlM
        (matchOne takerAccnt marketId taker now) (sums, app, resp) := by
  induction makers generalizing sums app resp with
  | nil => rfl
  | cons q makers inductionHypothesis =>
    have listed : app.heap.order q = app.order q := rfl
    rw [matchLoop, offers_cons, listed]
    by_cases filled : sums.sumLots = taker.resdLots
    · rw [if_pos filled, filled, Int.sub_self, Greedy.fill_zero]
      rfl
    · rw [if_neg filled]
      by_cases apart : 0 < spread taker (app.order q) direct
      · rw [if_pos apart, if_neg (not_le.mpr apart)]
        rfl
      · rw [if_neg apart, if_pos (not_lt.mp apart), Greedy.fill_cons (by omega), List.foldlM_cons]
        -- One match, then the rest of the loop on the same heap.
        simp only [matchOne, Sums.add]
        obtain ⟨lots, isLots⟩ : ∃ lots, lots = min (taker.resdLots - sums.sumLots) (app.order q).resdLots := ⟨_, rfl⟩
        rw [← isLots]
        cases made : app.newMatch marketId taker q lots (sums.sumLots + lots) (sums.sumCost + cost lots (app.order q).ticks) now with
        | none => simp only [Option.bind_eq_bind, Option.bind_none]
        | some result =>
          obtain ⟨m, next⟩ := result
          have kept := newMatch_heap made
          simp only [Option.bind_eq_bind, Option.bind_some]
          rw [inductionHypothesis, kept]
          congr 2
          exact (Int.sub_sub _ _ _).symm

/-- The makers that an order can match with. -/
def makers (app : App) (marketId : Int) (taker : Order) : List OrderPtr :=
  (app.view.side marketId taker.side.opposite).orders

def direct (taker : Order) : Direct := if taker.side = .buy then .paid else .given

/-- The fills of an order over a list of makers. -/
def fillsOf (h : Heap) (makers : List OrderPtr) (taker : Order) (id : Int) (e : ExecPtr) : List Fill :=
  Fill.number h ⟨0, 0, 0, 0⟩ id e (Greedy.fill taker.resdLots (offers h taker (direct taker) makers))

/-- The fills of an order, as the match phase makes them. -/
def fills (app : App) (marketId : Int) (taker : Order) : List Fill :=
  fillsOf app.heap (app.makers marketId taker) taker (app.view.maxId marketId) app.execs.fresh

/-- The taker when all its fills are made. -/
def filled (taker : Order) (now : Int) (fs : List Fill) : Order :=
  match fs with
  | [] => taker
  | f :: fs =>
    let sums := Fill.final f.sums fs
    taker.tradeSum sums.sumLots sums.sumCost sums.lastLots sums.lastTicks now

/-- The loop has made the executions of the fills, and given out their ids. -/
structure Matched (app app' : App) (marketId : Int) (taker : Order) (now : Int) (fs : List Fill) : Prop where
  view : app'.view = { app.view with
    maxId := update app.view.maxId marketId (app.view.maxId marketId + 2 * fs.length)
    reports := app.view.reports.allocs (fs.flatMap (Fill.execs app.heap taker now)) }
  execs : app'.execs = app.execs.allocs (fs.flatMap (Fill.execs app.heap taker now))
  matches_ : app'.matches_ = app.matches_ ++ fs.map fun f => f.toMatch app.heap marketId
  execs_ : app'.execs_ = app.execs_ ++ fs.flatMap Fill.trades

theorem newMatch_spec (taker : Order) (now : Int) (f : Fill) (id : f.makerId = app.view.maxId marketId + 1) (address : f.makerTrade = app.execs.fresh)
    (known : (app.sesss.find (app.order f.maker).accnt).isSome) :
    ∃ app', app.newMatch marketId taker f.maker f.lots f.sums.sumLots f.sums.sumCost now =
        some (f.toMatch app.heap marketId, app') ∧
      app'.view = { app.view with
        maxId := update app.view.maxId marketId (app.view.maxId marketId + 2)
        reports := app.view.reports.allocs (f.execs app.heap taker now) } ∧
      app'.execs = app.execs.allocs (f.execs app.heap taker now) ∧
      app'.matches_ = app.matches_ ∧ app'.execs_ = app.execs_ ∧
      (∀ b, (app'.sesss.find b).isSome = (app.sesss.find b).isSome) := by
  obtain ⟨sess, found⟩ := Option.isSome_iff_exists.mp known
  have secondId : ((app.allocId marketId).2.market marketId).maxId = app.view.maxId marketId + 1 := by
    rw [allocId, market_setMarket, if_pos rfl]
    rfl
  have firstTrade : Exec.trade (.make (app.order f.maker) (app.view.maxId marketId + 1) now) f.lots
      (app.order f.maker).ticks (app.view.maxId marketId + 1 + 1) .maker taker.accnt = f.makerExec app.heap taker now := by
    rw [Fill.makerExec, id]
    rfl
  have secondTrade : Exec.tradeSum (.make taker (app.view.maxId marketId + 1 + 1) now) f.sums.sumLots f.sums.sumCost f.lots
      (app.order f.maker).ticks (app.view.maxId marketId + 1) .taker (app.order f.maker).accnt =
        f.takerExec app.heap taker now := by
    rw [Fill.takerExec, id]
    rfl
  obtain ⟨ready, prepared⟩ : ∃ ready, ready = ((app.allocId marketId).2.allocId marketId).2.ensurePosn
      (app.order f.maker).accnt marketId := ⟨_, rfl⟩
  refine ⟨((ready.newExec (f.makerExec app.heap taker now)).2.newExec (f.takerExec app.heap taker now)).2, ?_, ?_, ?_, ?_, ?_, ?_⟩
  · -- The calls in the order of the source.
    have lookup : ((app.allocId marketId).2.allocId marketId).2.sesss.find
        (((app.allocId marketId).2.allocId marketId).2.order f.maker).accnt = some sess := found
    simp only [newMatch]
    rw [lookup]
    have ids : ((app.allocId marketId).2.allocId marketId).1 = app.view.maxId marketId + 1 + 1 :=
      congrArg (· + 1) secondId
    have following : f.makerTrade + 1 = (app.execs.alloc (f.makerExec app.heap taker now)).fresh := by
      rw [OrdMap.fresh_alloc, address]
    rw [Fill.toMatch, following]
    simp only [ids, ← firstTrade, ← secondTrade, prepared, address]
    rfl
  · rw [view_newExec, view_newExec, prepared, view_ensurePosn, view_allocId, view_allocId]
    simp only [View.newExec, View.allocId, update_self, update_idem, Fill.execs, OrdMap.allocs_cons, OrdMap.allocs_nil]
    rw [add_assoc]
    rfl
  · rw [prepared]
    rfl
  · rw [prepared]
    rfl
  · rw [prepared]
    rfl
  · intro b
    rw [prepared]
    show ((app.sesss.put (app.order f.maker).accnt _).find b).isSome = _
    rw [OrdMap.find_put]
    split
    next here => rw [here, known]; rfl
    next => rfl

theorem Matched.nil : Matched app app marketId taker now [] where
  view := by
    have same : update app.view.maxId marketId (app.view.maxId marketId + 2 * ([] : List Fill).length) = app.view.maxId := by
      simp
    rw [same]
    rfl
  execs := rfl
  matches_ := (List.append_nil _).symm
  execs_ := (List.append_nil _).symm

/-- All allocations, one match after the other. -/
theorem matchAll_spec (takerAccnt : Symbol) (taker : Order) (now : Int) (xs : List (OrderPtr × Int))
    (known : ∀ x ∈ xs, (app.sesss.find (app.order x.1).accnt).isSome) (sums : Sums) (resp : Response) :
    ∃ app' resp',
      xs.foldlM (matchOne takerAccnt marketId taker now) (sums, app, resp) =
        some (Fill.final sums (Fill.number app.heap sums (app.view.maxId marketId) app.execs.fresh xs), app', resp') ∧
      Matched app app' marketId taker now
        (Fill.number app.heap sums (app.view.maxId marketId) app.execs.fresh xs) ∧
      resp' = (Fill.number app.heap sums (app.view.maxId marketId) app.execs.fresh xs).foldl
        (fun resp f => f.respond app.heap takerAccnt resp) resp := by
  induction xs generalizing app sums resp with
  | nil => exact ⟨app, resp, rfl, .nil, rfl⟩
  | cons x xs inductionHypothesis =>
    obtain ⟨q, lots⟩ := x
    rw [Fill.number_cons, List.foldlM_cons]
    obtain ⟨f, first⟩ : ∃ f : Fill, f =
        { maker := q, lots, sums := sums.add lots (app.heap.order q).ticks, makerId := app.view.maxId marketId + 1,
          makerTrade := app.execs.fresh } := ⟨_, rfl⟩
    obtain ⟨next, made, view, execs, matches_, execs_, sesss⟩ :=
      newMatch_spec taker now f (by rw [first]) (by rw [first]) (by rw [first]; exact known _ List.mem_cons_self)
    obtain ⟨app₁, stored⟩ : ∃ app₁ : App, app₁ =
        { next with execs_ := next.execs_ ++ f.trades, matches_ := next.matches_ ++ [f.toMatch app.heap marketId] } :=
      ⟨_, rfl⟩
    have view₁ : app₁.view = { app.view with
        maxId := update app.view.maxId marketId (app.view.maxId marketId + 2)
        reports := app.view.reports.allocs (f.execs app.heap taker now) } := by rw [stored]; exact view
    have execs₁ : app₁.execs = app.execs.allocs (f.execs app.heap taker now) := by rw [stored]; exact execs
    have heap₁ : app₁.heap = app.heap := congrArg View.heap view₁
    obtain ⟨resp₁, one, told⟩ : ∃ resp₁, matchOne takerAccnt marketId taker now (sums, app, resp) (q, lots) =
        some (f.sums, app₁, resp₁) ∧ resp₁ = f.respond app.heap takerAccnt resp := by
      rw [first] at made
      simp only [matchOne, order]
      rw [show (app.newMatch marketId taker q lots (sums.add lots (app.heap.order q).ticks).sumLots
        (sums.add lots (app.heap.order q).ticks).sumCost now) = _ from made]
      exact ⟨_, by rw [stored, first]; rfl, by rw [first]; rfl⟩
    have known₁ : ∀ x ∈ xs, (app₁.sesss.find (app₁.order x.1).accnt).isSome := fun x inside => by
      have sesss₁ : app₁.sesss = next.sesss := by rw [stored]
      rw [App.order, heap₁, sesss₁, sesss]
      exact known x (List.mem_cons_of_mem _ inside)
    obtain ⟨app', resp', rest, matched, response⟩ := inductionHypothesis known₁ f.sums resp₁
    have maxId₁ : app₁.view.maxId marketId = app.view.maxId marketId + 2 := by rw [view₁]; exact update_self _ _ _
    have fresh₁ : app₁.execs.fresh = app.execs.fresh + 2 := by rw [execs₁, OrdMap.fresh_allocs]; rfl
    rw [heap₁, maxId₁, fresh₁] at rest matched response
    have sums₁ : f.sums = sums.add lots (app.heap.order q).ticks := by rw [first]
    rw [← first, ← sums₁, Fill.final_cons, one]
    refine ⟨app', resp', rest, ?_, by rw [response, told]; rfl⟩
    exact
      { view := by
          rw [matched.view, heap₁, maxId₁, view₁]
          simp only [update_idem, List.flatMap_cons, OrdMap.allocs_append, List.length_cons]
          congr 2
          push_cast
          ring
        execs := by rw [matched.execs, heap₁, execs₁, List.flatMap_cons, OrdMap.allocs_append]
        matches_ := by
          rw [matched.matches_, heap₁, stored, List.map_cons]
          simp [matches_]
        execs_ := by
          rw [matched.execs_, stored, List.flatMap_cons]
          simp [execs_] }

theorem mem_offers {h : Heap} {d : Direct} {makers : List OrderPtr} {q : OrderPtr} {lots : Int}
    (member : (q, lots) ∈ offers h taker d makers) :
    q ∈ makers ∧ lots = (h.order q).resdLots ∧ spread taker (h.order q) d ≤ 0 := by
  obtain ⟨r, taken, same⟩ := List.mem_map.mp member
  cases same
  have crosses := List.mem_takeWhile_imp taken
  exact ⟨(List.takeWhile_sublist _).subset taken, rfl, of_decide_eq_true crosses⟩

section FillsOf

variable {h h' : Heap} {makers : List OrderPtr} {id : Int} {e : ExecPtr}

theorem fillsOf_allocations (h : Heap) (makers : List OrderPtr) (taker : Order) (id : Int) (e : ExecPtr) :
    (fillsOf h makers taker id e).map (fun f => (f.maker, f.lots)) =
      Greedy.fill taker.resdLots (offers h taker (direct taker) makers) :=
  Fill.number_allocations _ _ _ _ _

/-- The makers of the fills are listed, and no more is taken of them than is open. -/
theorem mem_fillsOf {f : Fill} (member : f ∈ fillsOf h makers taker id e) :
    f.maker ∈ makers ∧ f.lots ≤ (h.order f.maker).resdLots ∧ spread taker (h.order f.maker) (direct taker) ≤ 0 := by
  have allocated : (f.maker, f.lots) ∈ Greedy.fill taker.resdLots (offers h taker (direct taker) makers) := by
    rw [← fillsOf_allocations h makers taker id e]
    exact List.mem_map_of_mem member
  obtain ⟨offered, inside, le⟩ := Greedy.fill_le allocated
  obtain ⟨listed, same, crosses⟩ := mem_offers inside
  exact ⟨listed, same ▸ le, crosses⟩

/-- No maker is matched twice. -/
theorem fillsOf_nodup (nodup : makers.Nodup) : ((fillsOf h makers taker id e).map Fill.maker).Nodup := by
  have allocated : (fillsOf h makers taker id e).map Fill.maker =
      (Greedy.fill taker.resdLots (offers h taker (direct taker) makers)).map Prod.fst := by
    rw [← fillsOf_allocations h makers taker id e, List.map_map]
    rfl
  have offered : (offers h taker (direct taker) makers).map Prod.fst =
      makers.takeWhile fun q => spread taker (h.order q) (direct taker) ≤ 0 := by
    rw [offers, List.map_map]
    exact List.map_id' _
  rw [allocated]
  refine ((Greedy.fill_prefix _ _).sublist.trans ?_).nodup nodup
  rw [offered]
  exact List.takeWhile_sublist _

/-- Only the makers are read. -/
theorem fillsOf_congr (agree : ∀ q ∈ makers, h'.order q = h.order q) :
    fillsOf h' makers taker id e = fillsOf h makers taker id e := by
  rw [fillsOf, offers_congr agree]
  refine Fill.number_congr fun x inside => ?_
  obtain ⟨offered, listed, -⟩ := Greedy.fill_le inside
  exact agree _ (mem_offers listed).1

theorem fillsOf_trades :
    (fillsOf h makers taker id e).flatMap Fill.trades =
      (List.range (2 * (fillsOf h makers taker id e).length)).map (e + ·) := by
  have length := congrArg List.length (fillsOf_allocations h makers taker id e)
  rw [List.length_map] at length
  rw [length]
  exact Fill.trades_number _ _ _ _

end FillsOf

/-- The loop only goes on when the session of the maker exists. -/
theorem known_of_matchAll {xs : List (OrderPtr × Int)} {sums : Sums} {resp : Response} {done : Sums × App × Response}
    (looped : xs.foldlM (matchOne takerAccnt marketId taker now) (sums, app, resp) = some done) :
    ∀ x ∈ xs, (app.sesss.find (app.order x.1).accnt).isSome := by
  induction xs generalizing sums app resp with
  | nil => simp
  | cons x xs inductionHypothesis =>
    rw [List.foldlM_cons] at looped
    obtain ⟨⟨sums₁, app₁, resp₁⟩, one, rest⟩ := Option.bind_eq_some_iff.mp looped
    obtain ⟨known, sesss⟩ : (app.sesss.find (app.order x.1).accnt).isSome ∧
        ∀ b, (app₁.sesss.find b).isSome = (app.sesss.find b).isSome := by
      simp only [matchOne, newMatch] at one
      split at one
      next => cases one
      next made =>
        split at made
        next => cases made
        next sess found =>
          have known : (app.sesss.find (app.order x.1).accnt).isSome := by
            rw [show app.sesss.find (app.order x.1).accnt = some sess from found]
            rfl
          cases made
          cases one
          refine ⟨known, fun b => ?_⟩
          show ((app.sesss.put (app.order x.1).accnt _).find b).isSome = _
          rw [OrdMap.find_put]
          split
          next here => rw [here, known]; rfl
          next => rfl
    have heap := (matchOne_heap one).1
    rw [List.forall_mem_cons]
    refine ⟨known, fun y member => ?_⟩
    have later := inductionHypothesis rest y member
    rwa [sesss, App.order, heap] at later

/-- A match phase that does not fault knows the sessions of its makers. -/
theorem known_of_matchOrders {p : OrderPtr} {resp : Response} {done : App × Response}
    (matched : app.matchOrders takerAccnt marketId p now resp = some done) :
    ∀ f ∈ app.fills marketId (app.order p), (app.sesss.find (app.order f.maker).accnt).isSome := by
  simp only [matchOrders] at matched
  split at matched
  next => cases matched
  next sums next resp' looped =>
    rw [matchLoop_eq, Int.sub_zero] at looped
    intro f member
    have inside := List.mem_map_of_mem (f := fun f : Fill => (f.maker, f.lots)) member
    rw [fills, fillsOf_allocations] at inside
    exact known_of_matchAll looped _ inside

theorem matchOrders_spec (takerAccnt : Symbol) (marketId now : Int) (scratch : app.matches_ = []) {p : OrderPtr}
    (present : (app.heap.orders.find p).isSome)
    (known : ∀ f ∈ app.fills marketId (app.order p), (app.sesss.find (app.order f.maker).accnt).isSome)
    (resp : Response) :
    ∃ app' resp', app.matchOrders takerAccnt marketId p now resp = some (app', resp') ∧
      app'.view = { app.view with
        heap := app.heap.setOrder p (filled (app.order p) now (app.fills marketId (app.order p)))
        maxId := update app.view.maxId marketId
          (app.view.maxId marketId + 2 * (app.fills marketId (app.order p)).length)
        reports := app.view.reports.allocs
          ((app.fills marketId (app.order p)).flatMap (Fill.execs app.heap (app.order p) now)) } ∧
      app'.execs = app.execs.allocs ((app.fills marketId (app.order p)).flatMap (Fill.execs app.heap (app.order p) now)) ∧
      app'.matches_ = (app.fills marketId (app.order p)).map (fun f => f.toMatch app.heap marketId) ∧
      app'.execs_ = app.execs_ ++ (app.fills marketId (app.order p)).flatMap Fill.trades ∧
      resp' = (app.fills marketId (app.order p)).foldl (fun resp f => f.respond app.heap takerAccnt resp) resp := by
  obtain ⟨taker, current⟩ : ∃ taker, taker = app.order p := ⟨_, rfl⟩
  rw [← current] at known ⊢
  obtain ⟨next, resp', looped, matched, response⟩ := matchAll_spec takerAccnt taker now
    (Greedy.fill taker.resdLots (offers app.heap taker (direct taker) (app.makers marketId taker)))
    (fun x inside => by
      rw [← fillsOf_allocations _ _ _ (app.view.maxId marketId) app.execs.fresh] at inside
      obtain ⟨f, member, rfl⟩ := List.mem_map.mp inside
      exact known f member) ⟨0, 0, 0, 0⟩ resp
  have loop : matchLoop takerAccnt marketId taker (direct taker) now (app.makers marketId taker) ⟨0, 0, 0, 0⟩ app resp =
      some (Fill.final ⟨0, 0, 0, 0⟩ (app.fills marketId taker), next, resp') := by
    rw [matchLoop_eq, Int.sub_zero]
    exact looped
  have matched : Matched app next marketId taker now (app.fills marketId taker) := matched
  have response : resp' = (app.fills marketId taker).foldl (fun resp f => f.respond app.heap takerAccnt resp) resp := response
  have heap : next.heap = app.heap := congrArg View.heap matched.view
  have matches_ : next.matches_ = (app.fills marketId taker).map fun f => f.toMatch app.heap marketId := by
    rw [matched.matches_, scratch, List.nil_append]
  cases made : app.fills marketId taker with
  | nil =>
    rw [made] at matched matches_ loop response
    refine ⟨next, resp', ?_, ?_, matched.execs, matches_, matched.execs_, response⟩
    · simp only [matchOrders, ← current]
      rw [show matchLoop takerAccnt marketId taker (if taker.side = .buy then .paid else .given) now
        ((app.market marketId).side taker.side.opposite).orders ⟨0, 0, 0, 0⟩ app resp = _ from loop]
      simp [matches_]
    · have unchanged : app.heap.setOrder p (filled taker now []) = app.heap := by
        rw [filled, current]
        simp only [Heap.setOrder, order, Heap.order, OrdMap.put_get present]
      rw [unchanged]
      exact matched.view
  | cons f fs =>
    rw [made] at matched matches_ loop response
    refine ⟨{ next with heap := next.heap.setOrder p (filled taker now (f :: fs)) }, resp', ?_, ?_, matched.execs, matches_,
      matched.execs_, response⟩
    · simp only [matchOrders, ← current]
      rw [show matchLoop takerAccnt marketId taker (if taker.side = .buy then .paid else .given) now
        ((app.market marketId).side taker.side.opposite).orders ⟨0, 0, 0, 0⟩ app resp = _ from loop]
      simp only [matches_, List.map_cons, ne_eq, reduceCtorEq, not_false_eq_true, if_true, Fill.final_cons]
      rfl
    · rw [heap]
      rw [view_setHeap, matched.view]

end App

end Swirly
