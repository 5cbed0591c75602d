import Swirly.Verified.Venue.Plan

/-!
# Symmetries of the exchange

It makes no difference to the exchange what its accounts are called and which ids it gives out.  Neither does it matter which
of the sides is the one that buys: an exchange on which sides trade places and prices change their signs is the same exchange.
-/

namespace Swirly

open Function

namespace Venue

/-- New names for the accounts and for the ids of each market; a mirrored exchange has its sides in each other's places. -/
structure Symmetry where
  accnt : Symbol → Symbol
  id : Int → Int → Int
  mirrored : Bool
  accnt_injective : Injective accnt
  accnt_default : accnt default = default
  isEmpty_accnt : ∀ a, (accnt a).isEmpty = a.isEmpty
  id_injective : ∀ m, Injective (id m)
  id_zero : ∀ m, id m 0 = 0

namespace Symmetry

variable (S : Symmetry)

def side (s : Side) : Side := if S.mirrored then s.opposite else s

/-- What becomes of prices and of costs. -/
def price (t : Int) : Int := if S.mirrored then -t else t

def order (o : Order) : Order :=
  { o with
    accnt := S.accnt o.accnt, id := S.id o.marketId o.id, side := S.side o.side, ticks := S.price o.ticks,
    execCost := S.price o.execCost, lastTicks := S.price o.lastTicks }

def exec (e : Exec) : Exec :=
  { e with
    accnt := S.accnt e.accnt, id := S.id e.marketId e.id, orderId := S.id e.marketId e.orderId, side := S.side e.side,
    ticks := S.price e.ticks, execCost := S.price e.execCost, lastTicks := S.price e.lastTicks,
    matchId := S.id e.marketId e.matchId, cpty := S.accnt e.cpty }

def posn (p : Posn) : Posn :=
  if S.mirrored then
    { buyLots := p.sellLots, buyCost := -p.sellCost, sellLots := p.buyLots, sellCost := -p.buyCost, netCost := p.netCost }
  else p

def sums (s : App.Sums) : App.Sums := { s with sumCost := S.price s.sumCost, lastTicks := S.price s.lastTicks }

def deal (d : Deal) : Deal :=
  { maker := S.order d.maker, lots := d.lots, sums := S.sums d.sums, makerId := S.id d.maker.marketId d.makerId }

def answer : Answer → Answer
  | .done => .done
  | .response m os es p => .response m (os.map S.order) (es.map S.exec) (p.map S.posn)
  | .trades trade cptyTrade => .trades (S.exec trade) (cptyTrade.map S.exec)

def target (m : Int) : Target → Target
  | .id id => .id (S.id m id)
  | .ref ref => .ref ref
  | .ids ids => .ids (ids.map (S.id m))

def call : Call → Call
  | .sess a => .sess (S.accnt a)
  | .createMarket instrId instr settlDay state busDay => .createMarket instrId instr settlDay state busDay
  | .updateMarket m state => .updateMarket m state
  | .createOrder a m ref side lots ticks minLots now busDay =>
    .createOrder (S.accnt a) m ref (S.side side) lots (S.price ticks) minLots now busDay
  | .changeOrder a m change target now => .changeOrder (S.accnt a) m change (S.target m target) now
  | .createTrade a m ref side lots ticks liqInd cpty created =>
    .createTrade (S.accnt a) m ref (S.side side) lots (S.price ticks) liqInd (S.accnt cpty) created
  | .archiveTrade a m id now => .archiveTrade (S.accnt a) m (S.id m id) now
  | .archiveTrades a m ids now => .archiveTrades (S.accnt a) m (ids.map (S.id m)) now
  | .pop => .pop

/-! ## Sides and prices -/

variable {S} {s t : Side} {lots ticks now : Int}

@[simp] theorem side_opposite (s : Side) : S.side s.opposite = (S.side s).opposite := by
  simp only [side]
  split <;> rfl

@[simp] theorem side_side (s : Side) : S.side (S.side s) = s := by
  simp only [side]
  split <;> simp

@[simp] theorem side_inj : S.side s = S.side t ↔ s = t := ⟨fun same => by rw [← side_side s, same, side_side], congrArg _⟩

@[simp] theorem price_zero : S.price 0 = 0 := by simp [price]

@[simp] theorem price_add (a b : Int) : S.price (a + b) = S.price a + S.price b := by
  simp only [price]
  split <;> omega

@[simp] theorem cost_price : cost lots (S.price ticks) = S.price (cost lots ticks) := by
  simp only [price, cost]
  split <;> simp

theorem composeKey_price : composeKey (S.side s) (S.price ticks) = composeKey s ticks := by
  cases mirrored : S.mirrored <;> cases s <;> simp [composeKey, side, price, mirrored, Side.opposite]

@[simp] theorem accnt_eq_iff {a b : Symbol} : S.accnt a = S.accnt b ↔ a = b := S.accnt_injective.eq_iff

@[simp] theorem id_eq_iff {m i j : Int} : S.id m i = S.id m j ↔ i = j := (S.id_injective m).eq_iff

/-! ## Orders, reports and positions -/

variable {o : Order} {e : Exec} {d : Deal}

@[simp] theorem done_order : (S.order o).done = o.done := rfl
@[simp] theorem ref_order : (S.order o).ref = o.ref := rfl
@[simp] theorem resdLots_order : (S.order o).resdLots = o.resdLots := rfl

theorem order_make {a instr : Symbol} {m settlDay id minLots : Int} {ref : Bytes} {side : Side} :
    Order.make (S.accnt a) m instr settlDay (S.id m id) ref (S.side side) lots (S.price ticks) minLots now =
      S.order (.make a m instr settlDay id ref side lots ticks minLots now) := by
  simp [order, Order.make]

theorem order_tradeSum {takenLots takenCost lastLots lastTicks : Int} :
    (S.order o).tradeSum takenLots (S.price takenCost) lastLots (S.price lastTicks) now =
      S.order (o.tradeSum takenLots takenCost lastLots lastTicks now) := by
  simp [order, Order.tradeSum]

theorem order_trade {lastLots lastTicks : Int} :
    (S.order o).trade lastLots (S.price lastTicks) now = S.order (o.trade lastLots lastTicks now) := by
  rw [Order.trade, cost_price, order_tradeSum]
  rfl

theorem order_changed {change : App.Change} : changed change now (S.order o) = S.order (changed change now o) := by
  cases change <;> rfl

theorem exec_make {id : Int} : Exec.make (S.order o) (S.id o.marketId id) now = S.exec (.make o id now) := by
  simp [exec, order, Exec.make, S.id_zero, S.accnt_default]

theorem exec_tradeSum {sumLots sumCost lastLots lastTicks matchId : Int} {liqInd : LiqInd} {cpty : Symbol} :
    (S.exec e).tradeSum sumLots (S.price sumCost) lastLots (S.price lastTicks) (S.id e.marketId matchId) liqInd (S.accnt cpty) =
      S.exec (e.tradeSum sumLots sumCost lastLots lastTicks matchId liqInd cpty) := by
  simp [exec, Exec.tradeSum]

theorem exec_trade {lastLots lastTicks matchId : Int} {liqInd : LiqInd} {cpty : Symbol} :
    (S.exec e).trade lastLots (S.price lastTicks) (S.id e.marketId matchId) liqInd (S.accnt cpty) =
      S.exec (e.trade lastLots lastTicks matchId liqInd cpty) := by
  rw [Exec.trade, cost_price, exec_tradeSum]
  rfl

theorem exec_report {change : App.Change} : change.report (S.exec e) = S.exec (change.report e) := by
  cases change <;> rfl

theorem exec_opposite {id : Int} : (S.exec e).opposite (S.id e.marketId id) = S.exec (e.opposite id) := by
  simp [exec, Exec.opposite]

theorem key_exec : (S.exec e).key = idKey e.marketId (S.id e.marketId e.id) := rfl

theorem posn_manual {m settlDay id netLots netLots' netCost netCost' : Int} {instr a cpty : Symbol} {ref : Bytes} {side : Side}
    {liqInd : LiqInd} :
    (Exec.makeManual m instr settlDay (S.id m id) (S.accnt a) ref (S.side side) lots (S.price ticks) netLots' netCost' liqInd
      (S.accnt cpty) now).posn 0 0 =
        S.exec ((Exec.makeManual m instr settlDay id a ref side lots ticks netLots netCost liqInd cpty now).posn 0 0) := by
  simp [exec, Exec.makeManual, Exec.posn, S.id_zero]

@[simp] theorem posn_make : S.posn .make = .make := by
  simp [posn, Posn.make]

/-- A purchase is seen as a sale for the negative price. -/
theorem posn_addTrade {p : Posn} : (S.posn p).addTrade (S.side s) lots (S.price ticks) = S.posn (p.addTrade s lots ticks) := by
  cases mirrored : S.mirrored with
  | false => simp [posn, side, price, mirrored]
  | true =>
    cases s with
    | buy =>
      simp [posn, side, price, mirrored, Side.opposite, Posn.addTrade, Posn.addBuy, Posn.addSell, Posn.netLots, cost]
      grind
    | sell =>
      simp [posn, side, price, mirrored, Side.opposite, Posn.addTrade, Posn.addBuy, Posn.addSell, Posn.netLots, cost]
      grind

/-! ## Venues alike -/

/-- The second venue is the first one under the symmetry. -/
structure Related (S : Symmetry) (v w : Venue) : Prop where
  capacity : w.mq.capacity = v.mq.capacity
  posted : w.mq.posted.length = v.mq.posted.length
  popped : w.mq.popped = v.mq.popped
  sound : v.mq.Sound
  maxExecs : w.maxExecs = v.maxExecs
  terms : w.terms = v.terms
  /-- Ids that are still to be given out. -/
  ids : ∀ m j, 0 < j → S.id m (v.maxId m + j) = w.maxId m + j
  last : ∀ m, w.last m = ((v.last m).1, S.price (v.last m).2.1, (v.last m).2.2)
  book : ∀ m s, w.book m (S.side s) = (v.book m s).map S.order
  home : ∀ m s, ∀ o ∈ v.book m s, o.marketId = m
  history : ∀ a, w.history (S.accnt a) = (v.history a).map S.exec
  trades : ∀ a m id, w.trades (S.accnt a) (idKey m (S.id m id)) = (v.trades a (idKey m id)).map S.exec
  posn : ∀ a m, w.posn (S.accnt a) m = S.posn (v.posn a m)

namespace Related

variable {v w : Venue} {m : Int} {a : Symbol} {ds : List Deal}

theorem setMq (related : S.Related v w) {mq mq' : MsgQueue} (capacity : mq'.capacity = mq.capacity)
    (posted : mq'.posted.length = mq.posted.length) (popped : mq'.popped = mq.popped) (sound : mq.Sound) :
    S.Related { v with mq } { w with mq := mq' } :=
  { related with capacity, posted, popped, sound }

theorem burn (related : S.Related v w) (k : Nat) : S.Related (v.burn m k) (w.burn m k) where
  __ := related
  ids n j positive := by
    simp only [Venue.burn, update_apply]
    split
    next here =>
      have given := related.ids n (k + j) (by omega)
      rw [here] at given ⊢
      rw [add_assoc, given, add_assoc]
    next => exact related.ids n j positive

theorem setLast (related : S.Related v w) (lots ticks time : Int) :
    S.Related (v.setLast m lots ticks time) (w.setLast m lots (S.price ticks) time) where
  __ := related
  last n := by
    simp only [Venue.setLast, update_apply]
    split
    next => rfl
    next => exact related.last n

theorem setBook (related : S.Related v w) {os : List Order} (home : ∀ o ∈ os, o.marketId = m) :
    S.Related (v.setBook m s os) (w.setBook m (S.side s) (os.map S.order)) where
  __ := related
  book n t := by
    simp only [Venue.setBook, update_apply]
    split
    next here =>
      subst here
      simp only [update_apply, side_inj]
      split
      next => rfl
      next => exact related.book n t
    next => exact related.book n t
  home n t o member := by
    simp only [Venue.setBook, update_apply] at member
    split at member
    next here =>
      subst here
      simp only [update_apply] at member
      split at member
      next => exact home o member
      next => exact related.home n t o member
    next => exact related.home n t o member

/-- An order changes in its place. -/
theorem amend (related : S.Related v w) {id : Int} {change change' : Order → Order}
    (same : ∀ o, change' (S.order o) = S.order (change o)) (kept : ∀ o, (change o).marketId = o.marketId) :
    S.Related (v.amend m s id change) (w.amend m (S.side s) (S.id m id) change') := by
  have home := related.home m s
  have amended : (w.book m (S.side s)).amend (fun o => o.id) (S.id m id)
      (fun o => if (change' o).done then none else some (change' o)) =
        ((v.book m s).amend (fun o => o.id) id fun o => if (change o).done then none else some (change o)).map S.order := by
    rw [related.book, List.amend, List.amend, List.filterMap_map, List.map_filterMap]
    refine List.filterMap_congr fun o member => ?_
    have here : (S.order o).id = S.id m id ↔ o.id = id := by
      rw [← home o member]
      exact S.id_eq_iff
    simp only [Function.comp_apply, here, same, done_order]
    split
    next => split <;> rfl
    next => rfl
  rw [Venue.amend, Venue.amend, amended]
  refine related.setBook fun o member => ?_
  cases List.mem_amend.mp member with
  | inl old => exact home o old.1
  | inr changed =>
    obtain ⟨o', listed, -, made⟩ := changed
    split at made
    next => cases made
    next =>
      obtain rfl := Option.some.inj made
      exact (kept o').trans (home o' listed)

theorem enter (related : S.Related v w) (here : o.marketId = m) : S.Related (v.enter m o) (w.enter m (S.order o)) := by
  rw [Venue.enter, Venue.enter, done_order]
  split
  next => exact related
  next =>
    have arrived : List.arrive (fun o : Order => composeKey o.side o.ticks) (w.book m (S.side o.side)) (S.order o) =
        (List.arrive (fun o : Order => composeKey o.side o.ticks) (v.book m o.side) o).map S.order := by
      rw [related.book, ← List.map_arrive]
      congr 1
      exact List.arrive_congr fun o' _ => composeKey_price
    show S.Related _ (w.setBook m (S.side o.side) _)
    rw [show (S.order o).side = S.side o.side from rfl, arrived]
    refine related.setBook fun o' member => ?_
    cases List.mem_arrive.mp member with
    | inl new => exact new ▸ here
    | inr old => exact related.home m o.side o' old

theorem push (related : S.Related v w) : S.Related (v.push a e) (w.push (S.accnt a) (S.exec e)) where
  __ := related
  history b := by
    simp only [Venue.push, update_apply, accnt_eq_iff]
    split
    next => rw [related.maxExecs, related.history, List.map_take, List.map_cons]
    next => exact related.history b

theorem file (related : S.Related v w) : S.Related (v.file a m e) (w.file (S.accnt a) m (S.exec e)) where
  __ := related.push (a := a) (e := e)
  trades b n id := by
    have key : idKey n (S.id n id) = (S.exec e).key ↔ idKey n id = e.key := by
      rw [key_exec, Request.key, idKey_inj, idKey_inj]
      constructor
      · rintro ⟨rfl, same⟩
        exact ⟨rfl, id_eq_iff.mp same⟩
      · rintro ⟨rfl, rfl⟩
        exact ⟨rfl, rfl⟩
    simp only [Venue.file, Venue.push, update_apply, accnt_eq_iff]
    split
    next =>
      simp only [update_apply, key]
      split
      next =>
        have found : w.trades (S.accnt a) (S.exec e).key = (v.trades a e.key).map S.exec := related.trades a e.marketId e.id
        rw [found]
        cases v.trades a e.key <;> rfl
      next => exact related.trades a n id
    next => exact related.trades b n id
  posn b n := by
    simp only [Venue.file, update_apply, accnt_eq_iff]
    split
    next =>
      simp only [update_apply]
      split
      next => rw [related.posn, ← posn_addTrade]; rfl
      next => exact related.posn a n
    next => exact related.posn b n

/-! ## Deals -/

/-- The id of the taker's trade follows that of the maker's. -/
def Numbered (S : Symmetry) (d : Deal) : Prop := S.id d.maker.marketId (d.makerId + 1) = S.id d.maker.marketId d.makerId + 1

theorem makerExec_deal (numbered : Numbered S d) : (S.deal d).makerExec (S.order o) now = S.exec (d.makerExec o now) := by
  have paired : S.id d.maker.marketId d.makerId + 1 = S.id (Exec.make d.maker d.makerId now).marketId (d.makerId + 1) := numbered.symm
  rw [Deal.makerExec, Deal.makerExec, ← exec_trade, ← exec_make, ← paired]
  rfl

theorem takerExec_deal (numbered : Numbered S d) (here : o.marketId = d.maker.marketId) :
    (S.deal d).takerExec (S.order o) now = S.exec (d.takerExec o now) := by
  have paired : S.id d.maker.marketId d.makerId + 1 = S.id o.marketId (d.makerId + 1) := by rw [here]; exact numbered.symm
  have own : S.id d.maker.marketId d.makerId = S.id (Exec.make o (d.makerId + 1) now).marketId d.makerId := by rw [← here]; rfl
  rw [Deal.takerExec, Deal.takerExec, ← exec_tradeSum, ← exec_make, ← paired, ← own]
  rfl

theorem told_deal (numbered : Numbered S d) (here : o.marketId = d.maker.marketId) :
    (S.deal d).told (S.order o) now = (d.told o now).map S.exec := by
  have same : (S.deal d).maker.accnt = (S.order o).accnt ↔ d.maker.accnt = o.accnt := accnt_eq_iff
  simp only [Deal.told, Deal.execs, same, makerExec_deal numbered, takerExec_deal numbered here]
  split <;> rfl

theorem settle (related : S.Related v w) (here : o.marketId = m) (maker : d.maker.marketId = m) (numbered : Numbered S d) :
    S.Related (v.settle m o now d) (w.settle m (S.order o) now (S.deal d)) := by
  have own : (S.deal d).maker.id = S.id m d.maker.id := by rw [← maker]; rfl
  have amended : S.Related (v.amend m o.side.opposite d.maker.id fun o => o.trade d.lots d.maker.ticks now)
      (w.amend m (S.side o.side.opposite) (S.id m d.maker.id) fun o => o.trade d.lots (S.price d.maker.ticks) now) :=
    related.amend (fun _ => order_trade) fun _ => rfl
  rw [side_opposite, ← own] at amended
  rw [Venue.settle, Venue.settle, makerExec_deal numbered, takerExec_deal numbered (here.trans maker.symm)]
  exact ((amended.setLast d.lots d.maker.ticks now).file).file

theorem settled {ds : List Deal} (here : o.marketId = m) (makers : ∀ d ∈ ds, d.maker.marketId = m ∧ Numbered S d)
    (related : S.Related v w) : S.Related (ds.foldl (fun v d => v.settle m o now d) v)
      (ds.foldl (fun w d => w.settle m (S.order o) now (S.deal d)) w) := by
  induction ds generalizing v w with
  | nil => exact related
  | cons d ds inductionHypothesis =>
    obtain ⟨⟨maker, numbered⟩, rest⟩ := List.forall_mem_cons.mp makers
    exact inductionHypothesis rest (related.settle here maker numbered)

theorem dealt_deals (ds : List Deal) : (S.order o).dealt now (ds.map S.deal) = S.order (o.dealt now ds) := by
  rw [Order.dealt, Order.dealt, List.getLast?_map]
  cases ds.getLast? with
  | none => rfl
  | some d => exact order_tradeSum

theorem accept (related : S.Related v w) (here : o.marketId = m) (makers : ∀ d ∈ ds, d.maker.marketId = m ∧ Numbered S d) :
    S.Related (v.accept m o now ds) (w.accept m (S.order o) now (ds.map S.deal)) := by
  have entered : S.Related (v.enter m (o.dealt now ds)) (w.enter m ((S.order o).dealt now (ds.map S.deal))) := by
    rw [dealt_deals]
    exact related.enter ((dealt_same o now ds).1.trans here)
  have told : Exec.make (S.order o) (S.order o).id now = S.exec (.make o o.id now) := exec_make
  rw [Venue.accept, Venue.accept, List.foldl_map, told]
  refine settled here makers ?_
  exact entered.push

/-- The deals are the same, from the ids after that of the order on. -/
theorem number_deals {sums : App.Sums} {id : Int} {xs : List (Order × Int)} (home : ∀ x ∈ xs, x.1.marketId = m)
    (ids : ∀ j, 0 < j → S.id m (id + j) = S.id m id + j) :
    Deal.number (S.sums sums) (S.id m id) (xs.map fun x => (S.order x.1, x.2)) = (Deal.number sums id xs).map S.deal ∧
      ∀ d ∈ Deal.number sums id xs, Numbered S d := by
  induction xs generalizing sums id with
  | nil => exact ⟨rfl, by simp [Deal.number]⟩
  | cons x xs inductionHypothesis =>
    obtain ⟨maker, lots⟩ := x
    obtain ⟨here, rest⟩ := List.forall_mem_cons.mp home
    simp only at here
    have one := ids 1 (by omega)
    have two := ids 2 (by omega)
    have later : ∀ j, 0 < j → S.id m (id + 2 + j) = S.id m (id + 2) + j := fun j positive => by
      rw [add_assoc, ids (2 + j) (by omega), two, add_assoc]
    rw [Deal.number]
    obtain ⟨next, isNext⟩ : ∃ next : App.Sums,
      next = ⟨sums.sumLots + lots, sums.sumCost + cost lots maker.ticks, lots, maker.ticks⟩ := ⟨_, rfl⟩
    have nextAlike : S.sums next =
        ⟨(S.sums sums).sumLots + lots, (S.sums sums).sumCost + cost lots (S.order maker).ticks, lots, (S.order maker).ticks⟩ := by
      rw [isNext]
      simp [Symmetry.sums, order]
    simp only [← isNext]
    obtain ⟨same, numbered⟩ := @inductionHypothesis next (id + 2) rest later
    constructor
    · rw [List.map_cons, Deal.number, List.map_cons, ← same, ← nextAlike, ← two]
      simp only [deal, here, one]
    · refine List.forall_mem_cons.mpr ⟨?_, numbered⟩
      show S.id maker.marketId (id + 1 + 1) = S.id maker.marketId (id + 1) + 1
      rw [here, add_assoc, one, show (1 : Int) + 1 = 2 from rfl, two]
      omega

theorem offers (related : S.Related v w) (o : Order) :
    w.offers m (S.order o) = (v.offers m o).map fun x => (S.order x.1, x.2) := by
  have spread : ∀ maker : Order, App.spread (S.order o) (S.order maker) (if (S.order o).side = .buy then .paid else .given) =
      App.spread o maker (if o.side = .buy then .paid else .given) := by
    intro maker
    obtain ⟨side, isSide⟩ : ∃ side, side = o.side := ⟨_, rfl⟩
    cases mirrored : S.mirrored <;> cases side <;>
      simp [App.spread, order, Symmetry.side, price, mirrored, ← isSide, Side.opposite] <;> omega
  rw [Venue.offers, Venue.offers, show (S.order o).side.opposite = S.side o.side.opposite by simp [order], related.book,
    List.takeWhile_map, List.map_map, List.map_map]
  simp only [Function.comp_def, spread]
  rfl

theorem deals (related : S.Related v w) (here : o.marketId = m) (ids : ∀ j, 0 < j → S.id m (o.id + j) = S.id m o.id + j) :
    w.deals m (S.order o) = (v.deals m o).map S.deal ∧ ∀ d ∈ v.deals m o, d.maker.marketId = m ∧ Numbered S d := by
  have home : ∀ x ∈ Greedy.fill o.resdLots (v.offers m o), x.1.marketId = m := by
    intro x member
    have offered := (Greedy.fill_prefix o.resdLots (v.offers m o)).subset (List.mem_map.mpr ⟨x, member, rfl⟩)
    simp only [Venue.offers, List.map_map] at offered
    obtain ⟨maker, taken, same⟩ := List.mem_map.mp offered
    exact same ▸ related.home m _ maker ((List.takeWhile_sublist _).subset taken)
  obtain ⟨same, numbered⟩ := @number_deals S m ⟨0, 0, 0, 0⟩ o.id _ home ids
  constructor
  · rw [Venue.deals, Venue.deals, related.offers, resdLots_order, Greedy.fill_map, show (S.order o).id = S.id m o.id by rw [← here]; rfl,
      ← same]
    simp [Symmetry.sums]
  · exact fun d member => ⟨related.home m _ _ (mem_deals member), numbered d member⟩

end Related

end Symmetry

end Venue

end Swirly
