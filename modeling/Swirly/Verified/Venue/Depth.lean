import Swirly.Verified.Venue.Call

/-!
# Market data

The levels of a side, which every change of an order keeps up, are the book of the exchange by price.  What is printed of the
markets is therefore a summary of the exchange.
-/

namespace Swirly

/-- The prices of a book, best first, each with the open lots and the number of its orders. -/
def depth (book : List Order) : List ShownLevel :=
  (book.map fun o => o.ticks).dedup.map fun ticks =>
    { ticks
      lots := ((book.filter fun o => o.ticks = ticks).map fun o => o.resdLots).sum
      count := (book.filter fun o => o.ticks = ticks).length }

namespace Venue

/-- What is shown of a market is what the exchange holds of it. -/
structure Quotes (v : Venue) (x : ShownMarket) : Prop where
  terms : v.terms x.id = some (x.instr, x.settlDay, x.state)
  last : v.last x.id = (x.lastLots, x.lastTicks, x.lastTime)
  bids : x.bids = depth (v.book x.id .buy)
  offers : x.offers = depth (v.book x.id .sell)
  bidsSorted : x.bids.Pairwise fun l k => k.ticks < l.ticks
  offersSorted : x.offers.Pairwise fun l k => l.ticks < k.ticks

/-- All the markets in the order of their ids. -/
structure MarketData (v : Venue) (shown : List ShownMarket) : Prop where
  sorted : shown.Pairwise fun x y => x.id < y.id
  quotes : ∀ x ∈ shown, v.Quotes x
  complete : ∀ m, (v.terms m).isSome → ∃ x ∈ shown, x.id = m

end Venue

/-- The markets of a scope as they are printed. -/
def Scope.pickMarkets (instrs : RefData) (maxLevels : Nat) (shown : List ShownMarket) : Scope → Except Exception Bytes
  | .all => .ok (jsonArray (shown.map (·.toJson maxLevels)))
  | .instr symbol => .ok (jsonArray ((shown.filter (·.instr = symbol)).map (·.toJson maxLevels)))
  | .market symbol settlDate | .ids symbol settlDate _ =>
    match RestApp.findMarket instrs symbol settlDate with
    | none => .error (RestServ.instrNotFound symbol)
    | some m =>
      match shown.find? (·.id = m) with
      | none => .error (.marketNotFound m)
      | some x => .ok (x.toJson maxLevels)

namespace MarketSide

variable {s : Side} {app : App} {side : MarketSide}

instance (s : Side) : Std.Irrefl (better s) where
  irrefl t := by cases s <;> simp [better]

instance (s : Side) : Std.Antisymm (better s) where
  antisymm t u first second := by
    rw [← composeKey_lt] at first second
    exact absurd second first.not_gt

/-- The prices of the levels are strictly sorted. -/
theorem ticks_sorted (wf : WF s app.heap side) : (side.levels.entries.map fun e => (app.heap.level e.2).ticks).Pairwise (better s) := by
  refine List.pairwise_map.mpr (side.levels.sorted.imp_of_mem fun {e f} memberE memberF less => ?_)
  have keyE := (wf.levelKey _ _ (OrdMap.mem_entries.mp memberE)).2
  have keyF := (wf.levelKey _ _ (OrdMap.mem_entries.mp memberF)).2
  exact composeKey_lt.mp (by rwa [keyE, keyF])

/-- The prices of the levels are those of the orders. -/
theorem ticks_levels (wf : WF s app.heap side) : side.levels.entries.map (fun e => (app.heap.level e.2).ticks) =
    (side.orders.map fun p => (app.order p).ticks).dedup := by
  have key : ∀ p ∈ side.orders, app.heap.key p = composeKey s (app.order p).ticks := fun p member => by
    rw [Heap.key, wf.orderSide p member]
    rfl
  have sorted : (side.orders.map fun p => (app.order p).ticks).Pairwise fun t u => composeKey s t ≤ composeKey s u :=
    List.pairwise_map.mpr (wf.sorted.imp_of_mem fun memberP memberQ le => by rwa [← key _ memberP, ← key _ memberQ])
  refine List.Pairwise.eq_of_mem_iff (ticks_sorted wf) ?_ fun t => ?_
  · -- No price is left twice, so what does not fall rises.
    refine ((sorted.sublist (List.dedup_sublist _)).and (List.nodup_dedup _)).imp fun {t u} both => ?_
    exact composeKey_lt.mp (lt_of_le_of_ne both.1 fun same => both.2 (composeKey_injective s same))
  · rw [List.mem_dedup, List.mem_map, List.mem_map]
    constructor
    · rintro ⟨e, inside, rfl⟩
      have found := OrdMap.mem_entries.mp inside
      obtain ⟨p, member, same⟩ := wf.level_iff.mp (Option.isSome_iff_exists.mpr ⟨_, found⟩)
      exact ⟨p, member, composeKey_injective s (by rw [← key p member, same, (wf.levelKey _ _ found).2])⟩
    · rintro ⟨p, member, rfl⟩
      obtain ⟨lp, -, found⟩ := wf.pointer p member
      refine ⟨_, OrdMap.mem_entries.mpr found, composeKey_injective s ?_⟩
      rw [(wf.levelKey _ _ found).2, key p member]

/-- The levels are the book by price. -/
theorem levels_depth (wf : WF s app.heap side) :
    RestApp.levels app side = depth (side.orders.map fun p => (app.order p).unlinked) := by
  have prices : ((side.orders.map fun p => (app.order p).unlinked).map fun o => o.ticks).dedup =
      side.levels.entries.map fun e => (app.heap.level e.2).ticks := by
    rw [ticks_levels wf, List.map_map]
    rfl
  rw [depth, prices, List.map_map, RestApp.levels]
  refine List.map_congr_left fun e inside => ?_
  have found := OrdMap.mem_entries.mp inside
  have summary := wf.summary _ _ found
  -- The queue of a key is the queue of a price.
  have queue : side.queue app.heap e.1 = side.orders.filter fun p => (app.order p).ticks = (app.heap.level e.2).ticks := by
    refine List.filter_congr fun p member => decide_eq_decide.mpr ?_
    rw [Heap.key, wf.orderSide p member, ← (wf.levelKey _ _ found).2]
    exact (composeKey_injective s).eq_iff
  have orders : (side.orders.map fun p => (app.order p).unlinked).filter (fun o => o.ticks = (app.heap.level e.2).ticks) =
      (side.queue app.heap e.1).map fun p => (app.order p).unlinked := by
    rw [List.filter_map, queue]
    rfl
  rw [Function.comp_apply, orders, List.map_map, List.length_map]
  simp only [ShownLevel.mk.injEq, true_and]
  exact ⟨summary.lots, summary.count⟩

end MarketSide

namespace App

variable {capacity maxExecs : Nat} {app : App} {cs : List Venue.Call} {outs : List (Except Exception Venue.Answer)}

theorem quotes_market (settled : app.Settled) {m : Int} {market : Market} (found : app.markets.find m = some market) :
    app.venue.Quotes (RestApp.market app m) where
  terms := by
    have stored : app.market m = market := OrdMap.get_of_find found
    show app.terms m = some ((app.market m).instr, (app.market m).settlDay, (app.market m).state)
    rw [App.terms, found, stored]
    rfl
  last := rfl
  bids := MarketSide.levels_depth (settled.inv.live.wf m .buy)
  offers := MarketSide.levels_depth (settled.inv.live.wf m .sell)
  bidsSorted := List.pairwise_map.mpr (List.pairwise_map.mp (MarketSide.ticks_sorted (settled.inv.live.wf m .buy)))
  offersSorted := List.pairwise_map.mpr (List.pairwise_map.mp (MarketSide.ticks_sorted (settled.inv.live.wf m .sell)))

theorem markets_shown (settled : app.Settled) : app.venue.MarketData (RestApp.markets app) where
  sorted := List.pairwise_map.mpr app.markets.sorted
  quotes x member := by
    obtain ⟨e, inside, rfl⟩ := List.mem_map.mp member
    exact quotes_market settled (OrdMap.mem_entries.mp inside)
  complete m known := by
    obtain ⟨terms, found⟩ := Option.isSome_iff_exists.mp known
    obtain ⟨market, stored, -⟩ := Option.map_eq_some_iff.mp found
    exact ⟨_, List.mem_map_of_mem (OrdMap.mem_entries.mpr stored), rfl⟩

theorem pickMarkets_eq (instrs : RefData) (maxLevels : Nat) (shown : List ShownMarket) (scope : Scope) :
    scope.pickMarkets instrs maxLevels shown = (scope.quotes instrs shown).map (RestApp.printMarkets maxLevels scope) := by
  cases scope with
  | all => rfl
  | instr symbol => rfl
  | market symbol settlDate | ids symbol settlDate _ =>
    rw [Scope.pickMarkets, Scope.quotes]
    cases RestApp.findMarket instrs symbol settlDate with
    | none => rfl
    | some m =>
      dsimp only
      cases shown.find? (·.id = m) with
      | none => rfl
      | some x => simp [Except.map, RestApp.printMarkets]

end App

end Swirly
