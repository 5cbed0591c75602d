import Swirly.Verified.Accnt.Shown
import Swirly.Verified.App.References
import Swirly.Verified.Venue.Model

/-!
# From the engine to the exchange

`App.venue` forgets the pointers of the engine.  Each update of a view is an update of its venue: an order that shrinks is
amended in its place, a report that is filed is filed, and the reports of a call do not disturb those that are there.
-/

namespace Swirly

open Function MarketSide

def View.venue (v : View) (terms : Int → Option (Symbol × Int × Nat)) : Venue where
  mq := v.mq
  maxExecs := v.maxExecs
  terms
  maxId := v.maxId
  last := v.last
  book m s := (v.side m s).orders.map fun p => (v.heap.order p).unlinked
  history a := (v.history a).map v.report
  trades a k := ((v.trades a).find k).map v.report
  posn := v.posn

namespace App

def terms (app : App) (m : Int) : Option (Symbol × Int × Nat) :=
  (app.markets.find m).map fun market => (market.instr, market.settlDay, market.state)

def venue (app : App) : Venue := app.view.venue app.terms

def answer (app : App) : Reply → Venue.Answer
  | .done => .done
  | .response resp =>
    .response resp.market (resp.orders.map fun p => (app.order p).unlinked) (resp.execs.map app.view.report)
      (resp.posn.map app.posn)
  | .trades trade cptyTrade => .trades (app.view.report trade) (cptyTrade.map app.view.report)

end App

/-- What the outside sees of a call. -/
def Outcome.seen : Outcome Reply → Option (Except Exception Venue.Answer × Venue)
  | .ok reply app => some (.ok (app.answer reply), app.venue)
  | .throw e app => some (.error e, app.venue)
  | .fault => none

@[simp] theorem Order.unlinked_level (o : Order) (level : Option LevelPtr) : ({ o with level } : Order).unlinked = o.unlinked :=
  rfl

@[simp] theorem Order.done_unlinked (o : Order) : o.unlinked.done = o.done := rfl

namespace View

variable {v : View} {terms : Int → Option (Symbol × Int × Nat)} {a : Symbol} {m : Int} {s : Side} {p : OrderPtr}

/-- The pointers of the histories and of the trades are those of reports. -/
structure Reported (v : View) : Prop where
  history : ∀ a, ∀ e ∈ v.history a, (v.reports.find e).isSome
  trades : ∀ a k e, (v.trades a).find k = some e → (v.reports.find e).isSome

/-- More reports do not change those that are there. -/
theorem venue_allocs (terms : Int → Option (Symbol × Int × Nat)) (reported : v.Reported) (es : List Exec) :
    ({ v with reports := v.reports.allocs es } : View).venue terms = v.venue terms := by
  have kept : ∀ e, (v.reports.find e).isSome → (v.reports.allocs es).get e = v.reports.get e := by
    intro e present
    obtain ⟨x, found⟩ := Option.isSome_iff_exists.mp present
    rw [OrdMap.get, OrdMap.get, OrdMap.find_allocs_of_lt _ _ (OrdMap.lt_fresh found)]
  have history : ∀ b, (v.history b).map (v.reports.allocs es).get = (v.history b).map v.reports.get := fun b =>
    List.map_congr_left fun e member => kept e (reported.history b e member)
  have trades : ∀ b k, ((v.trades b).find k).map (v.reports.allocs es).get = ((v.trades b).find k).map v.reports.get := by
    intro b k
    cases found : (v.trades b).find k with
    | none => rfl
    | some e => exact congrArg some (kept e (reported.trades b k e found))
  exact Venue.ext rfl rfl rfl rfl rfl rfl (funext history) (funext fun b => funext (trades b)) rfl

theorem venue_pushExec (e : ExecPtr) : (v.pushExec a e).venue terms = (v.venue terms).push a (v.report e) := by
  have history : ∀ b, ((v.pushExec a e).history b).map v.report = ((v.venue terms).push a (v.report e)).history b := by
    intro b
    simp only [pushExec, Venue.push, update_apply]
    split
    next => rw [List.map_take, List.map_cons]; rfl
    next => rfl
  exact Venue.ext rfl rfl rfl rfl rfl rfl (funext history) rfl rfl

theorem venue_fileTrade (e : ExecPtr) : (v.fileTrade a m e).venue terms = (v.venue terms).file a m (v.report e) := by
  have trades : ∀ b k, (((v.fileTrade a m e).trades b).find k).map v.report =
      update (v.venue terms).trades a (update ((v.venue terms).trades a) (v.report e).key
        (((v.venue terms).trades a (v.report e).key).or (some (v.report e)))) b k := by
    intro b k
    simp only [fileTrade, update_apply]
    split
    next here =>
      rw [OrdMap.find_insert, update_apply]
      split
      next same =>
        simp only [venue]
        cases (v.trades a).find (v.report e).key <;> rfl
      next => simp only [venue]
    next => rfl
  have pushed : ((v.pushExec a e).venue terms).history = ((v.venue terms).push a (v.report e)).history :=
    congrArg Venue.history (venue_pushExec e)
  exact Venue.ext rfl rfl rfl rfl rfl rfl pushed (funext fun b => funext (trades b)) rfl

theorem venue_setLast (lots ticks time : Int) :
    (v.setLast m lots ticks time).venue terms = (v.venue terms).setLast m lots ticks time := rfl

/-- Orders of one side have different ids. -/
theorem Ids.unique_of_side (ids : v.Ids) (live : v.Live) {q : OrderPtr} (member : p ∈ (v.side m s).orders)
    (other : q ∈ (v.side m s).orders) (same : (v.heap.order q).id = (v.heap.order p).id) : q = p := by
  refine ids.unique q p (live.present other) (live.present member) ?_
  rw [Request.key, Request.key, same, (live.home member).1, (live.home other).1]

end View

theorem App.Settled.reported {app : App} (settled : app.Settled) : app.view.Reported where
  history a e member := by
    rw [App.view, OrdMap.find_map, Option.isSome_map]
    exact (settled.history a e member).1
  trades a k e found := by
    rw [App.view, OrdMap.find_map, Option.isSome_map]
    exact (settled.trades.indexed a k e found).1.present

section Shrink

variable {v : View} {terms : Int → Option (Symbol × Int × Nat)} {m : Int} {s : Side} {p : OrderPtr} {h : Heap} {x : MarketSide}
  {stays : Prop} {o : Order}

/-- A change of the pointers' contents is an amendment of the book. -/
theorem Shrinks.book (shrinks : Shrinks v m s p stays o h x) (live : v.Live) (ids : v.Ids) {f : Order → Order}
    (changes : f (v.heap.order p).unlinked = o.unlinked) :
    x.orders.map (fun q => (h.order q).unlinked) =
      ((v.side m s).orders.map fun q => (v.heap.order q).unlinked).amend (fun o => o.id) (v.heap.order p).id
        fun o => if (f o).done then none else some (f o) := by
  obtain ⟨lp, order⟩ := shrinks.order
  have done : (f (v.heap.order p).unlinked).done = true ↔ ¬ stays := by
    rw [changes, Order.done_unlinked, shrinks.stays_iff, not_not]
    exact decide_eq_true_iff
  obtain ⟨content, before⟩ : ∃ content : OrderPtr → Order, content = fun q => (v.heap.order q).unlinked := ⟨_, rfl⟩
  obtain ⟨content', after⟩ : ∃ content' : OrderPtr → Order, content' = fun q => (h.order q).unlinked := ⟨_, rfl⟩
  have others : ∀ q, q ≠ p → content' q = content q := fun q differ => by
    rw [before, after]
    exact congrArg Order.unlinked (shrinks.order_ne differ)
  have unique : ∀ q ∈ (v.side m s).orders, (content q).id = (content p).id → q = p := by
    rw [before]
    exact fun q member same => View.Ids.unique_of_side ids live shrinks.member member same
  have amended := List.map_amend (fun o : Order => o.id) (fun o => if (f o).done then none else some (f o))
    (live.wf m s).nodup shrinks.member unique others
  rw [before, after] at amended
  refine Eq.trans ?_ amended.symm
  by_cases kept : stays
  · rw [if_neg fun closed => done.mp closed kept, (shrinks.shrunk.stay kept).1]
    refine List.map_congr_left fun q _ => ?_
    split
    next here => rw [here, order, changes]; rfl
    next => rfl
  · rw [if_pos (done.mpr kept), (shrinks.shrunk.leave kept).1]

theorem Shrinks.venue (terms : Int → Option (Symbol × Int × Nat)) (shrinks : Shrinks v m s p stays o h x) (live : v.Live)
    (ids : v.Ids) {f : Order → Order} (changes : f (v.heap.order p).unlinked = o.unlinked) :
    (v.shrink m s p h x).venue terms = (v.venue terms).amend m s (v.heap.order p).id f := by
  have book : ∀ n t, ((v.shrink m s p h x).side n t).orders.map (fun q => (h.order q).unlinked) =
      update (v.venue terms).book m (update ((v.venue terms).book m) s
        (((v.venue terms).book m s).amend (fun o => o.id) (v.heap.order p).id fun o => if (f o).done then none else some (f o)))
        n t := by
    intro n t
    rw [View.side_shrink]
    by_cases here : n = m ∧ t = s
    · obtain ⟨rfl, rfl⟩ := here
      rw [setSide_self, update_self, update_self]
      exact shrinks.book live ids changes
    · rw [setSide_other here]
      have other : ((v.side n t).orders.map fun q => (h.order q).unlinked) = (v.venue terms).book n t := by
        refine List.map_congr_left fun q member => ?_
        rw [shrinks.order_ne fun same => here (live.home_unique shrinks.member (same ▸ member))]
      rw [other, update_apply]
      split
      next sameMarket =>
        rw [update_of_ne fun sameSide => here ⟨sameMarket, sameSide⟩, sameMarket]
      next => rfl
  have fields : (v.shrink m s p h x).venue terms = { v.venue terms with
      book := fun n t => ((v.shrink m s p h x).side n t).orders.map fun q => (h.order q).unlinked } := by
    unfold View.shrink
    split <;> rfl
  rw [fields]
  exact Venue.ext rfl rfl rfl rfl rfl (funext fun n => funext (book n)) rfl rfl rfl

end Shrink

/-! ## Lookups -/

namespace View

variable {v : View} {terms : Int → Option (Symbol × Int × Nat)} {a : Symbol} {m id : Int} {p : OrderPtr}

/-- The open orders of a market. -/
def pointers (v : View) (m : Int) : List OrderPtr := (v.side m .buy).orders ++ (v.side m .sell).orders

theorem orders_venue : (v.venue terms).orders m = (v.pointers m).map fun p => (v.heap.order p).unlinked := by
  simp [Venue.orders, venue, pointers]

theorem mem_pointers : p ∈ v.pointers m ↔ ∃ s, p ∈ (v.side m s).orders := by
  rw [pointers, List.mem_append]
  constructor
  · rintro (bid | offer)
    · exact ⟨_, bid⟩
    · exact ⟨_, offer⟩
  · rintro ⟨s, member⟩
    cases s with
    | buy => exact .inl member
    | sell => exact .inr member

theorem mem_pointers_of_side (live : v.Live) {n : Int} {s : Side} (member : p ∈ (v.side n s).orders) :
    p ∈ v.pointers m ↔ (v.heap.order p).marketId = m := by
  rw [mem_pointers]
  constructor
  · rintro ⟨t, listed⟩
    exact (live.home listed).1
  · intro here
    obtain rfl : n = m := (live.home member).1.symm.trans here
    exact ⟨s, member⟩

/-- The index of an account finds what a search of the book finds. -/
theorem find_venue (live : v.Live) (ids : v.Ids) (a : Symbol) (m id : Int) :
    (v.venue terms).find a m id = ((v.orders a).find (idKey m id)).map fun p => (v.heap.order p).unlinked := by
  rw [Venue.find, orders_venue]
  have key : ∀ q ∈ v.pointers m, (v.heap.order q).id = id → (v.heap.order q).key = idKey m id := by
    intro q listed same
    obtain ⟨s, member⟩ := mem_pointers.mp listed
    rw [Request.key, same, (live.home member).1]
  cases found : (v.orders a).find (idKey m id) with
  | some p =>
    obtain ⟨accnt, own, member⟩ := live.find_iff.mp found
    obtain ⟨market, ownId⟩ := idKey_inj.mp own
    refine List.find?_map_of_unique ((mem_pointers_of_side live member).mpr market) ?_ ?_
    · exact decide_eq_true ⟨accnt, ownId⟩
    · intro q listed holds
      obtain ⟨accntQ, idQ⟩ := of_decide_eq_true holds
      obtain ⟨s, memberQ⟩ := mem_pointers.mp listed
      exact ids.unique q p (live.present memberQ) (live.present member) ((key q listed idQ).trans own.symm)
  | none =>
    refine List.find?_eq_none.mpr fun o listed => ?_
    obtain ⟨q, inside, rfl⟩ := List.mem_map.mp listed
    intro holds
    obtain ⟨accntQ, idQ⟩ := of_decide_eq_true holds
    obtain ⟨s, memberQ⟩ := mem_pointers.mp inside
    have home := live.home memberQ
    have filed : (v.orders a).find (idKey m id) = some q :=
      live.find_iff.mpr ⟨accntQ, key q inside idQ, by rw [home.1, home.2]; exact memberQ⟩
    rw [found] at filed
    cases filed

/-- The index of references finds what a search of the order's own market finds. -/
theorem findRef_venue (live : v.Live) (filed : v.RefsFiled) (a : Symbol) (m : Int) (ref : Bytes) :
    (v.venue terms).findRef a m ref =
      (((v.refs a).find ref).filter fun p => (v.heap.order p).marketId = m).map fun p => (v.heap.order p).unlinked := by
  rw [Venue.findRef, orders_venue]
  -- An order that the search can find is the one in the index.
  have indexed : ∀ q ∈ v.pointers m, (v.heap.order q).accnt = a ∧ (v.heap.order q).ref.data = ref ∧ ref ≠ [] →
      (v.refs a).find ref = some q := by
    rintro q listed ⟨rfl, rfl, referred⟩
    obtain ⟨s, member⟩ := mem_pointers.mp listed
    exact filed m s q member referred
  cases found : ((v.refs a).find ref).filter fun p => (v.heap.order p).marketId = m with
  | some p =>
    obtain ⟨inIndex, market⟩ := Option.filter_eq_some_iff.mp found
    obtain ⟨referred, own, accnt, member⟩ := live.refs a ref p inIndex
    refine List.find?_map_of_unique ((mem_pointers_of_side live member).mpr (of_decide_eq_true market)) ?_ ?_
    · exact decide_eq_true ⟨accnt, own, referred⟩
    · intro q listed holds
      have again := indexed q listed (of_decide_eq_true holds)
      rw [inIndex] at again
      exact (Option.some.inj again).symm
  | none =>
    refine List.find?_eq_none.mpr fun o listed => ?_
    obtain ⟨q, inside, rfl⟩ := List.mem_map.mp listed
    intro holds
    obtain ⟨s, member⟩ := mem_pointers.mp inside
    have inIndex := indexed q inside (of_decide_eq_true holds)
    have kept : ((v.refs a).find ref).filter (fun p => (v.heap.order p).marketId = m) = some q :=
      Option.filter_eq_some_iff.mpr ⟨inIndex, decide_eq_true (live.home member).1⟩
    rw [found] at kept
    cases kept

end View

end Swirly
