import Swirly.Verified.App.View
import Swirly.Verified.Side.Reduce

/-!
# Live orders

`Live` ties the three containers of an open order together: the side of its market, and the two indexes of its
account's session.  It speaks of every market and every account at once, and it needs neither positive quantities
nor short references, so it holds in every state that the engine can reach.
-/

namespace Swirly

open Function MarketSide

/-- The orders have the same identity: what the containers sort and find them by. -/
structure Order.Same (o o' : Order) : Prop where
  accnt : o.accnt = o'.accnt
  marketId : o.marketId = o'.marketId
  id : o.id = o'.id
  ref : o.ref = o'.ref
  side : o.side = o'.side
  ticks : o.ticks = o'.ticks

namespace Order.Same

variable {o o' o'' : Order}

theorem refl (o : Order) : o.Same o := ⟨rfl, rfl, rfl, rfl, rfl, rfl⟩

theorem symm (same : o.Same o') : o'.Same o :=
  ⟨same.accnt.symm, same.marketId.symm, same.id.symm, same.ref.symm, same.side.symm, same.ticks.symm⟩

theorem trans (first : o.Same o') (second : o'.Same o'') : o.Same o'' :=
  ⟨first.accnt.trans second.accnt, first.marketId.trans second.marketId, first.id.trans second.id,
    first.ref.trans second.ref, first.side.trans second.side, first.ticks.trans second.ticks⟩

theorem key (same : o.Same o') : o.key = o'.key := by
  simp only [Request.key, same.marketId, same.id]

end Order.Same

/-- The orders of `h` and `h'` differ in their quantities and links only. -/
structure Heap.Kept (h h' : Heap) : Prop where
  live : ∀ p, (h'.orders.find p).isSome = (h.orders.find p).isSome
  same : ∀ p, (h'.order p).Same (h.order p)

namespace Heap.Kept

variable {h h' h'' : Heap}

theorem refl (h : Heap) : Kept h h := ⟨fun _ => rfl, fun _ => .refl _⟩

theorem trans (first : Kept h h') (second : Kept h' h'') : Kept h h'' :=
  ⟨fun p => (second.live p).trans (first.live p), fun p => (second.same p).trans (first.same p)⟩

end Heap.Kept

/-- Every order of the store has an id of its own in its market, at most the last one given out. -/
structure Ids (h : Heap) (maxId : Int → Int) : Prop where
  nonneg : ∀ m, 0 ≤ maxId m
  positive : ∀ p, (h.orders.find p).isSome → 0 < (h.order p).id
  bounded : ∀ p, (h.orders.find p).isSome → (h.order p).id ≤ maxId (h.order p).marketId
  unique : ∀ p q, (h.orders.find p).isSome → (h.orders.find q).isSome → (h.order p).key = (h.order q).key → p = q

theorem Ids.kept {h h' : Heap} {maxId maxId' : Int → Int} (ids : Ids h maxId) (kept : Heap.Kept h h')
    (grown : ∀ m, maxId m ≤ maxId' m) : Ids h' maxId' where
  nonneg m := (ids.nonneg m).trans (grown m)
  positive p present := by
    rw [(kept.same p).id]
    exact ids.positive p (kept.live p ▸ present)
  bounded p present := by
    rw [(kept.same p).id, (kept.same p).marketId]
    exact (ids.bounded p (kept.live p ▸ present)).trans (grown _)
  unique p q pPresent qPresent same := by
    rw [(kept.same p).key, (kept.same q).key] at same
    exact ids.unique p q (kept.live p ▸ pPresent) (kept.live q ▸ qPresent) same

/-- A new order takes the next id of its market. -/
theorem Ids.newOrder {h : Heap} {maxId maxId' : Int → Int} (ids : Ids h maxId) (grown : ∀ m, maxId m ≤ maxId' m)
    {o : Order} (id : o.id = maxId o.marketId + 1) (last : o.id ≤ maxId' o.marketId) :
    Ids (h.newOrder o) maxId' := by
  -- No order has the new id yet.
  have unused : ∀ p, (h.orders.find p).isSome → (h.order p).key ≠ o.key := by
    intro p present same
    obtain ⟨market, sameId⟩ := idKey_inj.mp same
    have bounded := ids.bounded p present
    rw [market] at bounded
    omega
  exact
    { nonneg := fun m => (ids.nonneg m).trans (grown m)
      positive := fun p present => by
        cases eq_or_ne p h.orders.fresh with
        | inl here =>
          rw [here, h.order_newOrder_self]
          have := ids.nonneg o.marketId
          omega
        | inr differ =>
          rw [h.order_newOrder_ne _ differ]
          rw [h.find_newOrder, if_neg differ] at present
          exact ids.positive p present
      bounded := fun p present => by
        cases eq_or_ne p h.orders.fresh with
        | inl here => rw [here, h.order_newOrder_self]; exact last
        | inr differ =>
          rw [h.order_newOrder_ne _ differ]
          rw [h.find_newOrder, if_neg differ] at present
          exact (ids.bounded p present).trans (grown _)
      unique := fun p q pPresent qPresent same => by
        rw [h.find_newOrder] at pPresent qPresent
        cases eq_or_ne p h.orders.fresh with
        | inl pHere =>
          cases eq_or_ne q h.orders.fresh with
          | inl qHere => rw [pHere, qHere]
          | inr qDiffer =>
            rw [if_neg qDiffer] at qPresent
            rw [pHere, h.order_newOrder_self, h.order_newOrder_ne _ qDiffer] at same
            exact absurd same.symm (unused q qPresent)
        | inr pDiffer =>
          rw [if_neg pDiffer] at pPresent
          cases eq_or_ne q h.orders.fresh with
          | inl qHere =>
            rw [qHere, h.order_newOrder_self, h.order_newOrder_ne _ pDiffer] at same
            exact absurd same (unused p pPresent)
          | inr qDiffer =>
            rw [if_neg qDiffer] at qPresent
            rw [h.order_newOrder_ne _ pDiffer, h.order_newOrder_ne _ qDiffer] at same
            exact ids.unique p q pPresent qPresent same }

structure Live (h : Heap) (side : Int → Side → MarketSide) (orders : Symbol → OrdMap IdKey OrderPtr)
    (refs : Symbol → OrdMap Bytes OrderPtr) : Prop where
  wf : ∀ m s, WF s h (side m s)
  market : ∀ m s, ∀ p ∈ (side m s).orders, (h.order p).marketId = m
  resdLots : ∀ m s, ∀ p ∈ (side m s).orders, (h.order p).resdLots ≠ 0
  balance : ∀ m s, ∀ p ∈ (side m s).orders, (h.order p).resdLots + (h.order p).execLots = (h.order p).lots
  filed : ∀ m s, ∀ p ∈ (side m s).orders, (orders (h.order p).accnt).find (h.order p).key = some p
  booked : ∀ a k p, (orders a).find k = some p →
    (h.order p).accnt = a ∧ (h.order p).key = k ∧ p ∈ (side (h.order p).marketId (h.order p).side).orders
  refs : ∀ a r p, (refs a).find r = some p →
    r ≠ [] ∧ (h.order p).ref.data = r ∧ (h.order p).accnt = a ∧
      p ∈ (side (h.order p).marketId (h.order p).side).orders

/-- Every order with open lots is in the book. -/
def Complete (h : Heap) (side : Int → Side → MarketSide) : Prop :=
  ∀ p, (h.orders.find p).isSome → (h.order p).resdLots ≠ 0 →
    p ∈ (side (h.order p).marketId (h.order p).side).orders

abbrev View.Live (v : View) : Prop := Swirly.Live v.heap v.side v.orders v.refs

abbrev View.Complete (v : View) : Prop := Swirly.Complete v.heap v.side

abbrev View.Ids (v : View) : Prop := Swirly.Ids v.heap v.maxId

section Untouched

variable {v : View} {a : Symbol} {e : ExecPtr} {m lots ticks time : Int}

@[simp] theorem View.live_fileTrade : (v.fileTrade a m e).Live ↔ v.Live := Iff.rfl
@[simp] theorem View.live_setLast : (v.setLast m lots ticks time).Live ↔ v.Live := Iff.rfl
@[simp] theorem View.live_pushExec : (v.pushExec a e).Live ↔ v.Live := Iff.rfl
@[simp] theorem View.complete_fileTrade : (v.fileTrade a m e).Complete ↔ v.Complete := Iff.rfl
@[simp] theorem View.complete_setLast : (v.setLast m lots ticks time).Complete ↔ v.Complete := Iff.rfl
@[simp] theorem View.complete_pushExec : (v.pushExec a e).Complete ↔ v.Complete := Iff.rfl

end Untouched

theorem mem_setSide {side : Int → Side → MarketSide} {m n : Int} {s t : Side} {x : MarketSide} {q : OrderPtr} :
    q ∈ (setSide side m s x n t).orders ↔
      ((n = m ∧ t = s) ∧ q ∈ x.orders) ∨ (¬ (n = m ∧ t = s) ∧ q ∈ (side n t).orders) := by
  by_cases here : n = m ∧ t = s
  · rw [here.1, here.2, setSide_self]
    simp
  · rw [setSide_other here]
    simp [here]

namespace Live

variable {h h' : Heap} {side : Int → Side → MarketSide} {orders : Symbol → OrdMap IdKey OrderPtr}
  {refs : Symbol → OrdMap Bytes OrderPtr} {m n : Int} {s t : Side} {p : OrderPtr} {x : MarketSide}

theorem present (live : Live h side orders refs) (member : p ∈ (side m s).orders) : (h.orders.find p).isSome :=
  (live.wf m s).orderLive p member

/-- An order is in one side at most. -/
theorem home (live : Live h side orders refs) (member : p ∈ (side m s).orders) :
    (h.order p).marketId = m ∧ (h.order p).side = s :=
  ⟨live.market m s p member, (live.wf m s).orderSide p member⟩

theorem home_unique (live : Live h side orders refs) (member : p ∈ (side m s).orders)
    (other : p ∈ (side n t).orders) : n = m ∧ t = s :=
  ⟨(live.home other).1.symm.trans (live.home member).1, (live.home other).2.symm.trans (live.home member).2⟩

/-- The order index of an account holds its orders in the book. -/
theorem find_iff (live : Live h side orders refs) {a : Symbol} {k : IdKey} :
    (orders a).find k = some p ↔
      (h.order p).accnt = a ∧ (h.order p).key = k ∧ p ∈ (side (h.order p).marketId (h.order p).side).orders := by
  constructor
  · exact live.booked a k p
  · rintro ⟨rfl, rfl, member⟩
    exact live.filed _ _ p member

/-- No two sides share a level, since its first order is in one side only. -/
theorem level_unique (live : Live h side orders refs) {lp : LevelPtr} (linked : (side m s).HasLevel lp)
    (other : (side n t).HasLevel lp) : n = m ∧ t = s := by
  obtain ⟨k, found⟩ := linked
  obtain ⟨j, otherFound⟩ := other
  exact live.home_unique ((live.wf m s).first_mem found).1 ((live.wf n t).first_mem otherFound).1

/-- An account with an indexed order has a session. -/
theorem known {app : App} (live : app.view.Live) (member : p ∈ (app.view.side m s).orders) :
    (app.sesss.find (app.order p).accnt).isSome := by
  have filed := live.filed m s p member
  cases missing : app.sesss.find (app.order p).accnt with
  | some _ => rfl
  | none =>
    have empty : app.view.orders (app.order p).accnt = ∅ := by
      simp only [App.view, App.sess, OrdMap.get, missing]
      rfl
    rw [show app.view.heap.order p = app.order p from rfl, empty] at filed
    cases filed

/-- The sides apart from the one that an operation ran on. -/
theorem wf_setSide (live : Live h side orders refs) (frame : Heap.Frame h h' (· = p) (side m s).HasLevel)
    (outside : ∀ n t, p ∈ (side n t).orders → n = m ∧ t = s) (wf : WF s h' x) (n : Int) (t : Side) :
    WF t h' (setSide side m s x n t) := by
  by_cases here : n = m ∧ t = s
  · obtain ⟨rfl, rfl⟩ := here
    rwa [setSide_self]
  · rw [setSide_other here]
    refine (live.wf n t).frame frame ?_ ?_
    · intro q member same
      exact here (outside n t (same ▸ member))
    · intro lp linked other
      exact here (live.level_unique other linked)

/-- An order that is in no book can change. -/
theorem setOrder (live : Live h side orders refs) (outside : ∀ m s, p ∉ (side m s).orders) (o : Order) :
    Live (h.setOrder p o) side orders refs := by
  have order : ∀ m s, ∀ q ∈ (side m s).orders, (h.setOrder p o).order q = h.order q := fun m s q member =>
    Heap.order_setOrder_ne _ _ fun same => outside m s (same ▸ member)
  exact
    { wf := fun m s => (live.wf m s).frame (Heap.frame_setOrder (L := fun _ => False) h p o)
        (fun q member same => outside m s (same ▸ member)) fun _ _ => id
      market := fun m s q member => by rw [order m s q member]; exact live.market m s q member
      resdLots := fun m s q member => by rw [order m s q member]; exact live.resdLots m s q member
      balance := fun m s q member => by rw [order m s q member]; exact live.balance m s q member
      filed := fun m s q member => by rw [order m s q member]; exact live.filed m s q member
      booked := fun a k q found => by
        rw [order _ _ q (live.booked a k q found).2.2]; exact live.booked a k q found
      refs := fun a r q found => by
        rw [order _ _ q (live.refs a r q found).2.2.2]; exact live.refs a r q found }

/-- A new order is in no book. -/
theorem newOrder (live : Live h side orders refs) (o : Order) :
    Live (h.newOrder o) side orders refs :=
  live.setOrder (fun _ _ member => OrdMap.ne_fresh (live.present member) rfl) o

/-- An order that keeps its place. -/
theorem keep (live : Live h side orders refs) (member : p ∈ (side m s).orders)
    (frame : Heap.Frame h h' (· = p) (side m s).HasLevel) (wf : WF s h' x) (listed : x.orders = (side m s).orders)
    (same : (h'.order p).Same (h.order p)) (resdLots : (h'.order p).resdLots ≠ 0)
    (balance : (h'.order p).resdLots + (h'.order p).execLots = (h'.order p).lots) :
    Live h' (setSide side m s x) orders refs := by
  have order : ∀ q, q ≠ p → h'.order q = h.order q := fun q differ => frame.order differ
  have alike : ∀ q, (h'.order q).Same (h.order q) := by
    intro q
    cases eq_or_ne q p with
    | inl here => rwa [here]
    | inr differ => rw [order q differ]; exact .refl _
  have mem : ∀ n t q, q ∈ (setSide side m s x n t).orders ↔ q ∈ (side n t).orders := by
    intro n t q
    rw [mem_setSide, listed]
    constructor
    · rintro (⟨⟨rfl, rfl⟩, inside⟩ | ⟨-, inside⟩) <;> exact inside
    · intro inside
      exact (Decidable.em (n = m ∧ t = s)).imp (fun here => ⟨here, here.1 ▸ here.2 ▸ inside⟩) fun there => ⟨there, inside⟩
  exact
    { wf := live.wf_setSide frame (fun n t other => live.home_unique member other) wf
      market := fun n t q inside => by rw [(alike q).marketId]; exact live.market n t q ((mem n t q).mp inside)
      resdLots := fun n t q inside => by
        cases eq_or_ne q p with
        | inl here => rwa [here]
        | inr differ => rw [order q differ]; exact live.resdLots n t q ((mem n t q).mp inside)
      balance := fun n t q inside => by
        cases eq_or_ne q p with
        | inl here => rwa [here]
        | inr differ => rw [order q differ]; exact live.balance n t q ((mem n t q).mp inside)
      filed := fun n t q inside => by
        rw [(alike q).accnt, (alike q).key]; exact live.filed n t q ((mem n t q).mp inside)
      booked := fun a k q found => by
        rw [(alike q).accnt, (alike q).key, (alike q).marketId, (alike q).side, mem]; exact live.booked a k q found
      refs := fun a r q found => by
        rw [(alike q).accnt, (alike q).ref, (alike q).marketId, (alike q).side, mem]; exact live.refs a r q found }

/-- An order that leaves the side and its session. -/
theorem leave (live : Live h side orders refs) (member : p ∈ (side m s).orders)
    (frame : Heap.Frame h h' (· = p) (side m s).HasLevel) (wf : WF s h' x) (listed : x.orders = (side m s).orders.erase p)
    (same : (h'.order p).Same (h.order p)) {o : Order} (gone : o.Same (h.order p)) :
    Live h' (setSide side m s x) (update orders (h.order p).accnt ((orders (h.order p).accnt).erase o.key))
      (if o.ref.isEmpty then refs
        else update refs (h.order p).accnt ((refs (h.order p).accnt).erase o.ref.data)) := by
  have order : ∀ q, q ≠ p → h'.order q = h.order q := fun q differ => frame.order differ
  have alike : ∀ q, (h'.order q).Same (h.order q) := by
    intro q
    cases eq_or_ne q p with
    | inl here => rwa [here]
    | inr differ => rw [order q differ]; exact .refl _
  have mem : ∀ n t q, q ∈ (setSide side m s x n t).orders ↔ q ≠ p ∧ q ∈ (side n t).orders := by
    intro n t q
    rw [mem_setSide, listed, (live.wf m s).nodup.mem_erase_iff]
    constructor
    · rintro (⟨⟨rfl, rfl⟩, inside⟩ | ⟨there, inside⟩)
      · exact inside
      · exact ⟨fun here => there (live.home_unique member (here ▸ inside)), inside⟩
    · rintro ⟨differ, inside⟩
      exact (Decidable.em (n = m ∧ t = s)).imp (fun here => ⟨here, differ, here.1 ▸ here.2 ▸ inside⟩)
        fun there => ⟨there, inside⟩
  exact
    { wf := live.wf_setSide frame (fun n t other => live.home_unique member other) wf
      market := fun n t q inside => by rw [(alike q).marketId]; exact live.market n t q ((mem n t q).mp inside).2
      resdLots := fun n t q inside => by
        rw [order q ((mem n t q).mp inside).1]; exact live.resdLots n t q ((mem n t q).mp inside).2
      balance := fun n t q inside => by
        rw [order q ((mem n t q).mp inside).1]; exact live.balance n t q ((mem n t q).mp inside).2
      filed := fun n t q inside => by
        obtain ⟨differ, inside⟩ := (mem n t q).mp inside
        have filed := live.filed n t q inside
        rw [(alike q).accnt, (alike q).key, update_apply]
        split
        next sameAccnt =>
          -- Another order of the account has another key.
          rw [← sameAccnt, OrdMap.find_erase_ne, filed]
          intro sameKey
          have own := live.filed m s p member
          rw [← sameAccnt, ← gone.key, ← sameKey, filed] at own
          exact differ (Option.some.inj own)
        next => exact filed
      booked := fun a k q found => by
        have old : (orders a).find k = some q ∧ q ≠ p := by
          rw [update_apply] at found
          split at found
          next sameAccnt =>
            subst sameAccnt
            rw [OrdMap.find_erase] at found
            split at found
            next => cases found
            next otherKey =>
              refine ⟨found, fun here => otherKey ?_⟩
              rw [gone.key, ← here]
              exact (live.booked _ k q found).2.1.symm
          next otherAccnt => exact ⟨found, fun here => otherAccnt (here ▸ (live.booked a k q found).1.symm)⟩
        obtain ⟨accnt, key, inside⟩ := live.booked a k q old.1
        rw [(alike q).accnt, (alike q).key, (alike q).marketId, (alike q).side, mem]
        exact ⟨accnt, key, old.2, inside⟩
      refs := fun a r q found => by
        have old : (refs a).find r = some q ∧ q ≠ p := by
          split at found
          next noRef =>
            refine ⟨found, fun here => ?_⟩
            obtain ⟨nonempty, ref, -⟩ := live.refs a r q found
            rw [gone.ref, ← here] at noRef
            exact nonempty (ref ▸ List.isEmpty_iff.mp noRef)
          next =>
            rw [update_apply] at found
            split at found
            next sameAccnt =>
              subst sameAccnt
              rw [OrdMap.find_erase] at found
              split at found
              next => cases found
              next otherRef =>
                refine ⟨found, fun here => otherRef ?_⟩
                rw [gone.ref, ← here]
                exact (live.refs _ r q found).2.1.symm
            next otherAccnt => exact ⟨found, fun here => otherAccnt (here ▸ (live.refs a r q found).2.2.1.symm)⟩
        obtain ⟨nonempty, ref, accnt, inside⟩ := live.refs a r q old.1
        rw [(alike q).accnt, (alike q).ref, (alike q).marketId, (alike q).side, mem]
        exact ⟨nonempty, ref, accnt, old.2, inside⟩ }

/-- An order that enters the side and its session. -/
theorem enter (live : Live h side orders refs) (outside : ∀ n t, p ∉ (side n t).orders)
    (frame : Heap.Frame h h' (· = p) (side m s).HasLevel) (wf : WF s h' x)
    (listed : ∀ q, q ∈ x.orders ↔ q = p ∨ q ∈ (side m s).orders) (same : (h'.order p).Same (h.order p))
    (market : (h.order p).marketId = m) (ownSide : (h.order p).side = s) (resdLots : (h'.order p).resdLots ≠ 0)
    (balance : (h'.order p).resdLots + (h'.order p).execLots = (h'.order p).lots) {o : Order} (new : o.Same (h.order p))
    (fresh : (orders (h.order p).accnt).find (h.order p).key = none) :
    Live h' (setSide side m s x) (update orders (h.order p).accnt ((orders (h.order p).accnt).insert o.key p))
      (if o.ref.isEmpty then refs
        else update refs (h.order p).accnt ((refs (h.order p).accnt).insert o.ref.data p)) := by
  have order : ∀ q, q ≠ p → h'.order q = h.order q := fun q differ => frame.order differ
  have alike : ∀ q, (h'.order q).Same (h.order q) := by
    intro q
    cases eq_or_ne q p with
    | inl here => rwa [here]
    | inr differ => rw [order q differ]; exact .refl _
  have mem : ∀ n t q, q ∈ (setSide side m s x n t).orders ↔ (q = p ∧ n = m ∧ t = s) ∨ q ∈ (side n t).orders := by
    intro n t q
    rw [mem_setSide, listed]
    constructor
    · rintro (⟨⟨rfl, rfl⟩, here | inside⟩ | ⟨-, inside⟩)
      · exact .inl ⟨here, rfl, rfl⟩
      · exact .inr inside
      · exact .inr inside
    · rintro (⟨here, atM, atS⟩ | inside)
      · exact .inl ⟨⟨atM, atS⟩, .inl here⟩
      · exact (Decidable.em (n = m ∧ t = s)).imp (fun here => ⟨here, .inr (here.1 ▸ here.2 ▸ inside)⟩)
          fun there => ⟨there, inside⟩
  have home : ∀ q, q = p → q ∈ (setSide side m s x (h.order q).marketId (h.order q).side).orders := by
    intro q here
    rw [mem, here]
    exact .inl ⟨rfl, market, ownSide⟩
  exact
    { wf := live.wf_setSide frame (fun n t other => absurd other (outside n t)) wf
      market := fun n t q inside => by
        rw [(alike q).marketId]
        cases (mem n t q).mp inside with
        | inl here => rw [here.1, here.2.1, market]
        | inr old => exact live.market n t q old
      resdLots := fun n t q inside => by
        cases (mem n t q).mp inside with
        | inl here => rwa [here.1]
        | inr old => rw [order q fun here => outside n t (here ▸ old)]; exact live.resdLots n t q old
      balance := fun n t q inside => by
        cases (mem n t q).mp inside with
        | inl here => rwa [here.1]
        | inr old => rw [order q fun here => outside n t (here ▸ old)]; exact live.balance n t q old
      filed := fun n t q inside => by
        rw [(alike q).accnt, (alike q).key, new.key, update_apply]
        cases (mem n t q).mp inside with
        | inl here => rw [here.1, if_pos rfl, OrdMap.find_insert, if_pos rfl, fresh]; rfl
        | inr old =>
          have filed := live.filed n t q old
          split
          next sameAccnt =>
            rw [← sameAccnt, OrdMap.find_insert]
            split
            next sameKey => rw [← sameKey, filed]; rfl
            next => exact filed
          next => exact filed
      booked := fun a k q found => by
        rw [(alike q).accnt, (alike q).key, (alike q).marketId, (alike q).side]
        have old : q = p ∧ a = (h.order p).accnt ∧ k = (h.order p).key ∨ (orders a).find k = some q := by
          rw [update_apply] at found
          split at found
          next sameAccnt =>
            subst sameAccnt
            rw [OrdMap.find_insert, new.key] at found
            split at found
            next sameKey =>
              rw [fresh] at found
              exact .inl ⟨(Option.some.inj found).symm, rfl, sameKey⟩
            next => exact .inr found
          next => exact .inr found
        cases old with
        | inl here =>
          obtain ⟨rfl, rfl, rfl⟩ := here
          exact ⟨rfl, rfl, home q rfl⟩
        | inr old =>
          obtain ⟨accnt, key, inside⟩ := live.booked a k q old
          exact ⟨accnt, key, (mem _ _ q).mpr (.inr inside)⟩
      refs := fun a r q found => by
        rw [(alike q).accnt, (alike q).ref, (alike q).marketId, (alike q).side]
        have old : (q = p ∧ a = (h.order p).accnt ∧ r = (h.order p).ref.data ∧ r ≠ []) ∨ (refs a).find r = some q := by
          split at found
          next => exact .inr found
          next someRef =>
            rw [update_apply] at found
            split at found
            next sameAccnt =>
              subst sameAccnt
              rw [OrdMap.find_insert, new.ref] at found
              split at found
              next sameRef =>
                cases prior : (refs (h.order p).accnt).find (h.order p).ref.data with
                | none =>
                  rw [prior] at found
                  refine .inl ⟨(Option.some.inj found).symm, rfl, sameRef, fun none => someRef ?_⟩
                  rw [new.ref, StringBuf.isEmpty, ← sameRef, none]
                  rfl
                | some b =>
                  rw [prior] at found
                  rw [sameRef, prior]
                  exact .inr found
              next => exact .inr found
            next => exact .inr found
        cases old with
        | inl here =>
          obtain ⟨rfl, rfl, rfl, nonempty⟩ := here
          exact ⟨nonempty, rfl, rfl, home q rfl⟩
        | inr old =>
          obtain ⟨nonempty, ref, accnt, inside⟩ := live.refs a r q old
          exact ⟨nonempty, ref, accnt, (mem _ _ q).mpr (.inr inside)⟩ }

end Live

end Swirly
