import Swirly.Verified.Matching

/-!
# Quantities of orders

The quantities of every open order agree with each other, provided that the orders that are created have positive lots.
-/

namespace Swirly

open Function MarketSide

/-- The open and the executed lots make up the lots, until a cancellation takes what is open. -/
structure Order.Sound (o : Order) : Prop where
  resdLots : 0 ≤ o.resdLots
  execLots : 0 ≤ o.execLots
  within : o.execLots ≤ o.lots
  balance : o.state ≠ .cancel → o.resdLots + o.execLots = o.lots
  cancelled : o.state = .cancel → o.resdLots = 0

namespace Order.Sound

variable {o : Order} {now : Int} {level : Option LevelPtr}

theorem withLevel (sound : o.Sound) (level : Option LevelPtr) : ({ o with level } : Order).Sound :=
  ⟨sound.resdLots, sound.execLots, sound.within, sound.balance, sound.cancelled⟩

theorem trade (sound : o.Sound) {lots : Int} (positive : 0 < lots) (enough : lots ≤ o.resdLots) (ticks now : Int) :
    (o.trade lots ticks now).Sound := by
  have open_ : o.state ≠ .cancel := fun cancelled => by
    have none_open := sound.cancelled cancelled
    omega
  have balance := sound.balance open_
  have execLots := sound.execLots
  exact
    { resdLots := Int.sub_nonneg_of_le enough
      execLots := by show 0 ≤ o.execLots + lots; omega
      within := by show o.execLots + lots ≤ o.lots; omega
      balance := fun _ => by show o.resdLots - lots + (o.execLots + lots) = o.lots; omega
      cancelled := nofun }

/-- A change of an order that is open. -/
theorem change (sound : o.Sound) (open_ : o.resdLots ≠ 0) {change : App.Change} (fits : change.Fits o) (now : Int) :
    (change.apply o now).Sound := by
  have balance := sound.balance fun cancelled => open_ (sound.cancelled cancelled)
  cases change with
  | cancel => exact ⟨le_rfl, sound.execLots, sound.within, fun here => absurd rfl here, fun _ => rfl⟩
  | revise lots =>
    have fits : o.execLots ≤ lots := fits
    exact
      { resdLots := by show 0 ≤ o.resdLots - (o.lots - lots); omega
        execLots := sound.execLots
        within := fits
        balance := fun _ => by show o.resdLots - (o.lots - lots) + o.execLots = lots; omega
        cancelled := nofun }

end Order.Sound

/-- The open orders are sound. -/
def View.Sound (v : View) : Prop :=
  ∀ p, (v.heap.orders.find p).isSome → (v.heap.order p).resdLots ≠ 0 → (v.heap.order p).Sound

variable {v v' : View} {a : Symbol} {m now : Int} {s : Side} {change : App.Change}

/-- An update of one order. -/
theorem View.Sound.update (sound : v.Sound) (kept : Heap.Kept v.heap v'.heap) {p : OrderPtr}
    (order : (v'.heap.order p).Sound) (others : ∀ q, q ≠ p → v'.heap.order q = v.heap.order q) : v'.Sound := by
  intro q present open_
  cases eq_or_ne q p with
  | inl here => rwa [here]
  | inr differ =>
    rw [others q differ] at open_ ⊢
    rw [kept.live] at present
    exact sound q present open_

theorem View.Sound.listed (sound : v.Sound) (live : v.Live) {p : OrderPtr} (member : p ∈ (v.side m s).orders) :
    (v.heap.order p).Sound :=
  sound p (live.present member) (live.resdLots m s p member)

/-- The maker that a step of the commit loop trades. -/
theorem Committed.maker_sound {x : Match} (committed : Committed a m s now x v v') (sound : v.Sound) (positive : 0 < x.lots)
    (enough : x.lots ≤ (v.heap.order x.makerOrder).resdLots) : (v'.heap.order x.makerOrder).Sound := by
  obtain ⟨level, order⟩ := committed.order
  obtain ⟨h, side, shrinks, -⟩ := committed.step
  rw [order]
  exact ((sound.listed committed.live shrinks.member).trade positive enough _ _).withLevel level

theorem Committed.sound {x : Match} (committed : Committed a m s now x v v') (sound : v.Sound) (positive : 0 < x.lots)
    (enough : x.lots ≤ (v.heap.order x.makerOrder).resdLots) : v'.Sound :=
  sound.update committed.kept (committed.maker_sound sound positive enough) fun _ differ => committed.order_ne differ

theorem Commits.sound {xs : List Match} (commits : Commits a m s now xs v v') (sound : v.Sound)
    (nodup : (xs.map Match.makerOrder).Nodup)
    (fits : ∀ x ∈ xs, 0 < x.lots ∧ x.lots ≤ (v.heap.order x.makerOrder).resdLots) : v'.Sound := by
  induction commits with
  | nil => exact sound
  | cons first rest inductionHypothesis =>
    obtain ⟨differ, nodup⟩ := List.nodup_cons.mp nodup
    obtain ⟨⟨positive, enough⟩, fits⟩ := List.forall_mem_cons.mp fits
    refine inductionHypothesis (first.sound sound positive enough) nodup fun y member => ?_
    rw [first.order_ne fun same => differ (same ▸ List.mem_map_of_mem member)]
    exact fits y member

namespace App

variable {app app' : App}

/-- The order that a change is made to. -/
theorem Changed.order_sound {p : OrderPtr} {e : ExecPtr} (changed : Changed change now p e v v') (sound : v.Sound)
    (fits : change.Fits (v.heap.order p)) : (v'.heap.order p).Sound := by
  obtain ⟨level, order⟩ := changed.order
  obtain ⟨h, x, shrinks, -⟩ := changed.step
  rw [order]
  exact ((sound.listed changed.live shrinks.member).change (changed.live.resdLots _ _ _ shrinks.member) fits
    now).withLevel level

theorem Changed.sound {p : OrderPtr} {e : ExecPtr} (changed : Changed change now p e v v') (sound : v.Sound)
    (fits : change.Fits (v.heap.order p)) : v'.Sound :=
  sound.update changed.kept (changed.order_sound sound fits) fun _ differ => changed.order_ne differ

/-- What fits an order still fits it once the change is made to another or to the same order. -/
theorem Changed.fits {p q : OrderPtr} {e : ExecPtr} (changed : Changed change now p e v v')
    (fitsFirst : change.Fits (v.heap.order p)) (fits : change.Fits (v.heap.order q)) : change.Fits (v'.heap.order q) := by
  cases eq_or_ne q p with
  | inl here =>
    obtain ⟨level, order⟩ := changed.order
    rw [here, order]
    exact Change.fits_apply fitsFirst
  | inr differ =>
    rw [changed.order_ne differ]
    exact fits

theorem Changes.sound {xs : List (ExecPtr × OrderPtr)} (changes : Changes change now xs v v') (sound : v.Sound)
    (fits : ∀ x ∈ xs, change.Fits (v.heap.order x.2)) : v'.Sound := by
  induction changes with
  | nil => exact sound
  | cons first rest inductionHypothesis =>
    obtain ⟨fitsFirst, fits⟩ := List.forall_mem_cons.mp fits
    exact inductionHypothesis (first.sound sound fitsFirst) fun y member => first.fits fitsFirst (fits y member)

/-- The match phase makes fills of positive lots, and no more than the order has. -/
theorem Sound.fills {o : Order} (inv : app.Inv) (sound : app.view.Sound) (new : o.resdLots = o.lots) (positive : 0 < o.lots) :
    (∀ f ∈ app.incomingFills m o, 0 < f.lots) ∧ 0 ≤ ((app.deals m o).map Deal.lots).sum ∧
      ((app.deals m o).map Deal.lots).sum ≤ o.lots := by
  have openLots : ∀ x ∈ offers app.heap o (direct o) (app.makers m o), 0 < x.2 := fun x inside => by
    obtain ⟨member, lots, -⟩ := mem_offers (show (x.1, x.2) ∈ _ from inside)
    rw [lots]
    exact lt_of_le_of_ne (sound.listed inv.live member).resdLots (inv.live.resdLots _ _ _ member).symm
  refine ⟨fun f member => ?_, ?_⟩
  · have inside := List.mem_map_of_mem (f := fun f : Fill => (f.maker, f.lots)) member
    rw [incomingFills, fillsOf_allocations] at inside
    exact Greedy.fill_positive (by omega) openLots inside
  · have nonneg := Greedy.total_nonneg openLots
    rw [sum_deals, Greedy.total_fill (by omega) openLots]
    omega

variable {ref : Bytes} {side : Side} {lots ticks minLots busDay : Int} {op : Op}

/-- A new order after its fills. -/
theorem filled_sound {o : Order} (incoming : o = app.incoming a m ref side lots ticks minLots now)
    (nonneg : 0 ≤ ((app.deals m o).map Deal.lots).sum) (enough : ((app.deals m o).map Deal.lots).sum ≤ o.lots) :
    (filled o now (app.incomingFills m o)).Sound := by
  obtain ⟨execLots, -, resdLots⟩ := incoming_filled o now incoming
  have kept : (filled o now (app.incomingFills m o)).lots = o.lots ∧
      (filled o now (app.incomingFills m o)).state ≠ .cancel := by
    cases app.incomingFills m o with
    | nil => rw [filled, incoming]; exact ⟨rfl, by rintro ⟨⟩⟩
    | cons f fs => exact ⟨rfl, by rintro ⟨⟩⟩
  exact
    { resdLots := by omega
      execLots := by omega
      within := by omega
      balance := fun _ => by omega
      cancelled := fun cancelled => absurd cancelled kept.2 }

/-- The new order in the book. -/
theorem Opened.fresh_sound (inv : app.Inv) (sound : app.view.Sound) (positive : 0 < lots) {v : View} {o : Order}
    (incoming : o = app.incoming a m ref side lots ticks minLots now)
    (opened : Opened app a m o now (app.incomingFills m o) v) : (v.heap.order app.heap.orders.fresh).Sound := by
  have fresh : o.resdLots = o.lots ∧ o.lots = lots := by rw [incoming]; exact ⟨rfl, rfl⟩
  obtain ⟨-, nonneg, enough⟩ := Sound.fills (m := m) inv sound fresh.1 (by omega)
  obtain ⟨level, order⟩ := opened.placed.order
  rw [order]
  exact (filled_sound incoming nonneg enough).withLevel level

theorem Opened.sound (inv : app.Inv) (sound : app.view.Sound) (positive : 0 < lots) {v : View} {o : Order}
    (incoming : o = app.incoming a m ref side lots ticks minLots now)
    (opened : Opened app a m o now (app.incomingFills m o) v) : v.Sound := by
  intro q present open_
  cases eq_or_ne q app.heap.orders.fresh with
  | inl here =>
    rw [here]
    exact opened.fresh_sound inv sound positive incoming
  | inr differ =>
    rw [opened.placed.others q differ] at present
    rw [opened.placed.order_ne differ] at open_ ⊢
    exact sound q present open_

/-- The matches of a new order, for the commit loop. -/
theorem Opened.fits (inv : app.Inv) (sound : app.view.Sound) (positive : 0 < lots) {v : View} {o : Order}
    (incoming : o = app.incoming a m ref side lots ticks minLots now)
    (opened : Opened app a m o now (app.incomingFills m o) v) :
    ∀ x ∈ (app.incomingFills m o).map fun f => f.toMatch app.heap m,
      0 < x.lots ∧ x.lots ≤ (v.heap.order x.makerOrder).resdLots := by
  have fresh : o.resdLots = o.lots ∧ o.lots = lots := by rw [incoming]; exact ⟨rfl, rfl⟩
  obtain ⟨positive, -⟩ := Sound.fills (m := m) inv sound fresh.1 (by omega)
  refine List.forall_mem_map.mpr fun f member => ⟨positive f member, ?_⟩
  have differ := OrdMap.ne_fresh (inv.live.present (mem_fillsOf member).1)
  show f.lots ≤ (v.heap.order f.maker).resdLots
  rw [opened.placed.order_ne differ]
  exact (mem_fillsOf member).2.1

theorem nodup_matches (inv : app.Inv) (m : Int) (o : Order) :
    (((app.incomingFills m o).map fun f => f.toMatch app.heap m).map Match.makerOrder).Nodup := by
  rw [List.map_map]
  exact fillsOf_nodup (inv.live.wf m _).nodup

end App

/-- The lots of a new order are positive. -/
def Op.Positive : Op → Prop
  | createOrder _ _ _ _ lots _ _ _ _ => 0 < lots
  | _ => True

instance (op : Op) : Decidable op.Positive :=
  match op with
  | .createOrder _ _ _ _ lots _ _ _ _ => inferInstanceAs (Decidable (0 < lots))
  | .sess .. | .createMarket .. | .updateMarket .. | .changeOrder .. | .createTrade .. | .archiveExec .. | .archiveTrade ..
  | .archiveTrades .. | .pop => .isTrue trivial

namespace App

variable {app app' : App} {op : Op}

theorem Effect.sound (inv : app.Inv) (sound : app.view.Sound) (positive : op.Positive) (effect : Effect app op app') :
    app'.view.Sound := by
  cases effect with
  | idle grown view execs => rw [view]; exact sound
  | posted view archived execs silent => rw [view]; exact sound
  | created checked opened commits ledger =>
    exact commits.sound (opened.sound inv sound positive rfl) (nodup_matches inv _ _) (opened.fits inv sound positive rfl)
  | changed held journaled changes execs =>
    refine changes.sound sound fun x member => ?_
    have inside : x.2 ∈ (pairs app.execs.fresh _).map Prod.snd := List.mem_map_of_mem member
    rw [pairs_snd] at inside
    exact Change.fits_of_check (held _ inside).2
  | traded traded =>
    cases traded with
    | oneSided alone journal view matches_ execs_ execs => rw [view]; exact sound
    | twoSided paired journal view matches_ execs_ execs => rw [view]; exact sound
  | archived view archived owner execs silent => rw [view]; exact sound

theorem Inv.sound_step (inv : app.Inv) (sound : app.view.Sound) (positive : op.Positive)
    (stepped : app.step op = some app') : app'.view.Sound := by
  obtain ⟨app₀, view₀, -, inv₀, effect, -⟩ := step_effect inv stepped
  exact effect.sound inv₀ (view₀ ▸ sound) positive

/-- The orders are sound in every state of a run. -/
theorem Inv.sound_run {Allowed : App → Op → Prop} {ops : List Op} (inv : app.Inv) (sound : app.view.Sound)
    (positive : ∀ app op, Allowed app op → op.Positive) (run : Run App.step Allowed app ops app') :
    app'.Inv ∧ app'.view.Sound :=
  run.invariant (I := fun app => app.Inv ∧ app.view.Sound)
    (fun _ _ _ kept allowed stepped => ⟨kept.1.step stepped, kept.1.sound_step kept.2 (positive _ _ allowed) stepped⟩)
    ⟨inv, sound⟩

theorem Inv.sound_of_empty (inv : app.Inv) (empty : ∀ m s, (app.view.side m s).orders = []) : app.view.Sound :=
  fun p present open_ => by
    have listed := inv.complete p present open_
    rw [empty] at listed
    cases listed

theorem sound_make (capacity maxExecs : Nat) : (App.make capacity maxExecs).view.Sound := fun _ present => by
  cases present

/-- The matcher's theorem applies in every state that a run reaches. -/
theorem Inv.inOrder (inv : app.Inv) (sound : app.view.Sound) (m : Int) : app.InOrder m where
  wf := inv.live.wf m
  resdLots s q member :=
    lt_of_le_of_ne (sound.listed inv.live member).resdLots (inv.live.resdLots m s q member).symm
  matches_ := inv.matches_
  execs_ := inv.execs_

end App

end Swirly
