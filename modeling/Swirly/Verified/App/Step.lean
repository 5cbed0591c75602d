import Swirly.Lob.Op
import Swirly.Verified.App.Bulk
import Swirly.Verified.App.Trade
import Swirly.Verified.Journal

/-!
# Steps

`Effect` says once what a call can do to the state; `step_effect` derives it from the code.  `App.Inv` holds in
every state that a run reaches (`Effect.inv`), whatever the arguments of its calls.
-/

namespace Swirly.App

open Function MarketSide

variable {app app' : App} {op : Op}

/-- The call archives trades of the account. -/
def Archives : Op → Symbol → Prop
  | .archiveExec b .., a => b = a
  | .archiveTrade b .., a => b = a
  | .archiveTrades b .., a => b = a
  | _, _ => False

/-- What a call can do to the state, once its session is there. -/
inductive Effect (app : App) : Op → App → Prop
  | idle {op : Op} {app' : App} {given : Int → Int} (grown : ∀ m, app.view.maxId m ≤ given m)
      (view : app'.view = { app.view with maxId := given }) (execs : app'.execs = app.execs) : Effect app op app'
  | posted {op : Op} {app' : App} {mq : MsgQueue} {terms : Int → Symbol × Int × Nat}
      (view : app'.view = { app.view with mq, terms }) (archived : mq.archived = app.mq.archived)
      (execs : app'.execs = app.execs) (silent : app.mq.Silent mq) : Effect app op app'
  | created {a : Symbol} {m : Int} {ref : Bytes} {side : Side} {lots ticks minLots now busDay : Int} {app' : App} {v : View}
      (checked : app.admission a m ref lots minLots busDay = none)
      (opened : Opened app a m (app.incoming a m ref side lots ticks minLots now) now
        (app.incomingFills m (app.incoming a m ref side lots ticks minLots now)) v)
      (commits : Commits a m side.opposite now
        ((app.incomingFills m (app.incoming a m ref side lots ticks minLots now)).map fun f => f.toMatch app.heap m) v
        app'.view)
      (ledger : app'.ledger = createdLedger app a m (app.incoming a m ref side lots ticks minLots now) now
        (app.incomingFills m (app.incoming a m ref side lots ticks minLots now))) :
      Effect app (.createOrder a m ref side lots ticks minLots now busDay) app'
  | changed {a : Symbol} {m : Int} {change : Change} {target : Target} {now : Int} {app' : App} {ps : List OrderPtr}
      {mq : MsgQueue} (held : ∀ p ∈ ps, app.Held a p ∧ change.check (app.order p) = none)
      (journaled : app.mq.Journaled (reportsOf app.heap change now (app.view.maxId m) ps) mq)
      (changes : Changes change now (pairs app.execs.fresh ps) { app.view with
        mq
        maxId := update app.view.maxId m (app.view.maxId m + ps.length)
        reports := app.view.reports.allocs (reportsOf app.heap change now (app.view.maxId m) ps) } app'.view)
      (execs : app'.execs = app.execs.allocs (reportsOf app.heap change now (app.view.maxId m) ps)) :
      Effect app (.changeOrder a m change target now) app'
  | traded {a : Symbol} {m : Int} {ref : Bytes} {side : Side} {lots ticks : Int} {liqInd : LiqInd} {cpty : Symbol}
      {created : Int} {result : ExecPtr × Option ExecPtr} {app' : App}
      (traded : Traded app a m (app.manualTrade a m ref side lots ticks liqInd cpty created) cpty (.ok result app')) :
      Effect app (.createTrade a m ref side lots ticks liqInd cpty created) app'
  | archived {op : Op} {a : Symbol} {m : Int} {ids : List Int} {mq : MsgQueue} {app' : App}
      (view : app'.view = archive { app.view with mq } a m ids)
      (archived : mq.archived = app.mq.archived ++ (ids.filter fun id => id ≠ 0).map (idKey m))
      (owner : ∀ id ∈ ids,
        (∃ k e, (app.view.trades a).find k = some e ∧ (k = idKey m id ∨ (app.exec e).key = idKey m id)) ∨
        ∃ e now, op = .archiveExec a e now ∧ (app.exec e).state = .trade ∧ (app.exec e).key = idKey m id)
      (execs : app'.execs = app.execs) (silent : app.mq.Silent mq) (acts : Archives op a) : Effect app op app'

theorem grown_update {maxId : Int → Int} {m given : Int} (grown : maxId m ≤ given) (n : Int) :
    maxId n ≤ update maxId m given n := by
  rw [update_apply]
  split
  next here => rw [here]; exact grown
  next => exact le_rfl

/-- A call that throws and restores the state. -/
theorem Restored.effect {m given : Int} (restored : Restored app m given app') (grown : app.view.maxId m ≤ given) :
    Effect app op app' := .idle (grown_update grown) restored.view restored.execs

theorem Effect.same (app : App) (op : Op) : Effect app op app := .idle (fun _ => le_rfl) rfl rfl

/-- The scratch vectors are empty between calls. -/
def Clear (app : App) : Prop := app.matches_ = [] ∧ app.execs_ = []

variable {a : Symbol} {m now : Int} {p : OrderPtr} {change : Change} {target : Target}

theorem Ended.effect {outcome : Outcome Response} (inv : app.Inv) (held : app.Held a p)
    (ended : Ended app m change p now outcome) (ends : outcome.state = some app') :
    Effect app (.changeOrder a m change target now) app' ∧ app'.Clear := by
  cases ended with
  | rejected checked =>
    cases ends
    exact ⟨.same _ _, inv.matches_, inv.execs_⟩
  | unjournaled checked full restored =>
    cases ends
    exact ⟨restored.effect (by omega), restored.matches_, restored.execs_⟩
  | committed checked journal changed matches_ execs_ execs response =>
    cases ends
    have all : ∀ q ∈ [p], app.Held a q ∧ change.check (app.order q) = none := fun q member => by
      rw [List.mem_singleton.mp member]
      exact ⟨held, checked⟩
    exact ⟨.changed all (.of_createExec journal) (.cons changed .nil) execs, matches_, execs_⟩
  | fault => cases ends

theorem BulkEnded.effect {outcome : Outcome Response} {ids : List Int} (inv : app.Inv)
    (ended : BulkEnded app a m change ids now outcome) (ends : outcome.state = some app') :
    Effect app (.changeOrder a m change target now) app' ∧ app'.Clear := by
  cases ended with
  | rejected missing restored =>
    cases ends
    exact ⟨restored.effect (by omega), restored.matches_, restored.execs_⟩
  | unjournaled accepted full restored =>
    cases ends
    exact ⟨restored.effect (by omega), restored.matches_, restored.execs_⟩
  | committed accepted journal repeats changes matches_ execs_ execs response =>
    cases ends
    refine ⟨.changed (fun p member => ?_) (.of_createExecs journal) changes execs, matches_, execs_⟩
    obtain ⟨i, small, rfl⟩ := List.mem_iff_getElem.mp member
    have accepts := accepted.get (by rw [accepted.length_eq]; exact small) small
    obtain ⟨accnt, -, listed⟩ := inv.live.booked a _ _ accepts.found
    exact ⟨⟨accnt, listed⟩, accepts.checked⟩
  | fault => cases ends

theorem changeTarget_effect (inv : app.Inv) (ends : (app.changeTarget a m change now target).state = some app') :
    Effect app (.changeOrder a m change target now) app' ∧ app'.Clear := by
  cases target with
  | id id =>
    simp only [changeTarget, changeById] at ends
    cases found : (app.sess a).orders.find (idKey m id) with
    | none =>
      rw [found] at ends
      cases ends
      exact ⟨.same _ _, inv.matches_, inv.execs_⟩
    | some p =>
      rw [found] at ends
      obtain ⟨accnt, -, listed⟩ := inv.live.booked a _ p found
      exact (changeOrder_spec inv ⟨accnt, listed⟩ m change now).effect inv ⟨accnt, listed⟩ ends
  | ref ref =>
    simp only [changeTarget, changeByRef] at ends
    cases found : (app.sess a).refIdx.find ref with
    | none =>
      rw [found] at ends
      cases ends
      exact ⟨.same _ _, inv.matches_, inv.execs_⟩
    | some p =>
      rw [found] at ends
      obtain ⟨-, -, accnt, listed⟩ := inv.live.refs a _ p found
      exact (changeOrder_spec inv ⟨accnt, listed⟩ m change now).effect inv ⟨accnt, listed⟩ ends
  | ids ids => exact (changeByIds_spec inv a m change ids now).effect inv ends

theorem Archived.effect {ids : List Int} {outcome : Outcome Unit} (inv : app.Inv) (archived : Archived app a m ids outcome)
    (ends : outcome.state = some app')
    (owner : ∀ id ∈ ids,
      (∃ k e, (app.view.trades a).find k = some e ∧ (k = idKey m id ∨ (app.exec e).key = idKey m id)) ∨
      ∃ e now, op = .archiveExec a e now ∧ (app.exec e).state = .trade ∧ (app.exec e).key = idKey m id)
    (acts : Archives op a) : Effect app op app' ∧ app'.Clear := by
  cases archived with
  | rejected =>
    cases ends
    exact ⟨.same _ _, inv.matches_, inv.execs_⟩
  | committed journal view execs matches_ execs_ =>
    cases ends
    refine ⟨.archived view ?_ owner execs ?_ acts, matches_.trans inv.matches_, execs_.trans inv.execs_⟩
    · cases journal with
      | inl bulk => exact MsgQueue.archived_archiveTrades bulk
      | inr single =>
        obtain ⟨id, rfl, posted⟩ := single
        exact MsgQueue.archived_doArchiveTrade posted
    · cases journal with
      | inl bulk => exact MsgQueue.silent_archiveTrades bulk
      | inr single =>
        obtain ⟨id, rfl, posted⟩ := single
        exact MsgQueue.silent_doArchiveTrade posted

theorem BulkArchived.effect {ids : List Int} {outcome : Outcome Unit} (inv : app.Inv)
    (archived : BulkArchived app a m ids now outcome) (ends : outcome.state = some app') (acts : Archives op a) :
    Effect app op app' ∧ app'.Clear := by
  cases archived with
  | rejected missing =>
    cases ends
    exact ⟨.same _ _, inv.matches_, inv.execs_⟩
  | unjournaled found full =>
    cases ends
    exact ⟨.same _ _, inv.matches_, inv.execs_⟩
  | committed found journal nodup view execs matches_ execs_ =>
    cases ends
    refine ⟨.archived view (MsgQueue.archived_archiveTrades journal) (fun id member => ?_) execs
      (MsgQueue.silent_archiveTrades journal) acts, matches_.trans inv.matches_, execs_.trans inv.execs_⟩
    obtain ⟨e, present⟩ := Option.isSome_iff_exists.mp (found id member)
    exact .inl ⟨_, e, present, .inl rfl⟩
  | fault => cases ends

/-- A call first makes its session, which the view does not show. -/
theorem Inv.ensureSess (inv : app.Inv) (a : Symbol) : (app.ensureSess a).Inv where
  live := by rw [view_ensureSess]; exact inv.live
  complete := by rw [view_ensureSess]; exact inv.complete
  ids := by rw [view_ensureSess]; exact inv.ids
  matches_ := inv.matches_
  execs_ := inv.execs_

/-- A lookup of a market that fails leaves the state as it is. -/
theorem withMarket_effect {α : Type} {f : Outcome α} (inv : app.Inv)
    (effect : f.state = some app' → Effect app op app' ∧ app'.Clear) (ends : (app.withMarket m f).state = some app') :
    Effect app op app' ∧ app'.Clear := by
  unfold withMarket at ends
  split at ends
  next => exact effect ends
  next =>
    cases ends
    exact ⟨.same _ _, inv.matches_, inv.execs_⟩

theorem view_setTerms (state : Nat) :
    (app.setMarket m { app.market m with state }).view = { app.view with
      terms := update app.view.terms m ((app.market m).instr, (app.market m).settlDay, state) } := by
  apply view_setMarket_eq
  · exact (update_eq_self m _).symm
  · exact (update_eq_self m _).symm
  · exact (update_eq_self m _).symm
  · rfl
  · rfl

/-- A new market is an empty one. -/
theorem view_newMarket (absent : app.markets.find m = none) (instr : Symbol) (settlDay : Int) (state : Nat) :
    (app.setMarket m (.make instr settlDay state)).view = { app.view with
      terms := update app.view.terms m (instr, settlDay, state) } := by
  have empty : app.market m = default := by rw [market, OrdMap.get, absent]; rfl
  have sides : (app.market m).side = (Market.make instr settlDay state).side := by
    rw [empty]
    funext s
    cases s <;> rfl
  apply view_setMarket_eq
  · rw [← sides]
    exact (update_eq_self m _).symm
  · rw [show (Market.make instr settlDay state).maxId = (app.market m).maxId by rw [empty]; rfl]
    exact (update_eq_self m _).symm
  · rw [show ((Market.make instr settlDay state).lastLots, (Market.make instr settlDay state).lastTicks,
      (Market.make instr settlDay state).lastTime) = app.view.last m by simp only [view, empty]; rfl]
    exact (update_eq_self m _).symm
  · rfl
  · rfl

/-- What a step comes to. -/
theorem step_effect (inv : app.Inv) (stepped : app.step op = some app') :
    ∃ app₀, app₀.view = app.view ∧ app₀.execs = app.execs ∧ app₀.Inv ∧ Effect app₀ op app' ∧ app'.Clear := by
  cases op with
  | sess a =>
    cases stepped
    exact ⟨_, view_ensureSess a, rfl, inv.ensureSess a, .same _ _, inv.matches_, inv.execs_⟩
  | createMarket instrId instr settlDay state busDay =>
    refine ⟨app, rfl, rfl, inv, ?_⟩
    simp only [step, call, Outcome.state_map, createMarket] at stepped
    split at stepped
    next =>
      cases stepped
      exact ⟨.same _ _, inv.matches_, inv.execs_⟩
    next =>
      split at stepped
      next =>
        cases stepped
        exact ⟨.same _ _, inv.matches_, inv.execs_⟩
      next absent =>
        split at stepped
        next =>
          cases stepped
          exact ⟨.same _ _, inv.matches_, inv.execs_⟩
        next mq posted =>
          cases stepped
          have missing : ({ app with mq } : App).markets.find (toMarketId instrId settlDay) = none := by simpa using absent
          have view := view_newMarket missing instr settlDay state
          rw [view_setMq] at view
          exact ⟨.posted view ((MsgQueue.archived_post posted).trans (List.append_nil _)) rfl
            (MsgQueue.silent_post posted fun body => by simp), inv.matches_, inv.execs_⟩
  | updateMarket m state =>
    refine ⟨app, rfl, rfl, inv, withMarket_effect inv (fun ends => ?_) stepped⟩
    simp only [Outcome.state_map, updateMarket] at ends
    split at ends
    next =>
      cases ends
      exact ⟨.same _ _, inv.matches_, inv.execs_⟩
    next mq posted =>
      cases ends
      have view : (({ app with mq } : App).setMarket m { ({ app with mq } : App).market m with state }).view = _ :=
        view_setTerms state
      rw [view_setMq] at view
      exact ⟨.posted view ((MsgQueue.archived_post posted).trans (List.append_nil _)) rfl
        (MsgQueue.silent_post posted fun body => by simp), inv.matches_, inv.execs_⟩
  | createOrder a m ref side lots ticks minLots now busDay =>
    refine ⟨_, view_ensureSess a, rfl, inv.ensureSess a, withMarket_effect (inv.ensureSess a) (fun ends => ?_) stepped⟩
    rw [Outcome.state_map] at ends
    have created := createOrder_spec (inv.ensureSess a) a m ref side lots ticks minLots now busDay
    generalize (app.ensureSess a).createOrder a m ref side lots ticks minLots now busDay = outcome at created ends
    cases created with
    | rejected checked =>
      cases ends
      exact ⟨.same _ _, inv.matches_, inv.execs_⟩
    | unjournaled checked full restored =>
      cases ends
      exact ⟨restored.effect (by omega), restored.matches_, restored.execs_⟩
    | committed checked opened commits matches_ execs_ ledger response =>
      cases ends
      exact ⟨.created checked opened commits ledger, matches_, execs_⟩
  | changeOrder a m change target now =>
    refine ⟨_, view_ensureSess a, rfl, inv.ensureSess a, withMarket_effect (inv.ensureSess a) (fun ends => ?_) stepped⟩
    rw [Outcome.state_map] at ends
    exact changeTarget_effect (inv.ensureSess a) ends
  | createTrade a m ref side lots ticks liqInd cpty created =>
    refine ⟨_, view_ensureSess a, rfl, inv.ensureSess a, withMarket_effect (inv.ensureSess a) (fun ends => ?_) stepped⟩
    rw [Outcome.state_map] at ends
    have traded := createTrade_spec (inv.ensureSess a) a m ref side lots ticks liqInd cpty created
    cases result : (app.ensureSess a).createTrade a m ref side lots ticks liqInd cpty created with
    | fault =>
      rw [result] at ends
      cases ends
    | throw e next =>
      rw [result] at ends traded
      cases ends
      cases traded with
      | unjournaled restored => exact ⟨restored.effect (by omega), restored.matches_, restored.execs_⟩
    | ok trades next =>
      rw [result] at ends traded
      cases ends
      refine ⟨.traded traded, ?_⟩
      cases traded with
      | oneSided alone journal view matches_ execs_ execs => exact ⟨matches_, execs_⟩
      | twoSided paired journal view matches_ execs_ execs => exact ⟨matches_, execs_⟩
  | archiveExec a e now =>
    refine ⟨_, view_ensureSess a, rfl, inv.ensureSess a, ?_⟩
    simp only [step, call, Outcome.state_map, archiveExec] at stepped
    split at stepped
    next =>
      cases stepped
      exact ⟨.same _ _, inv.matches_, inv.execs_⟩
    next isTrade =>
      refine (doArchiveTrade_spec _ _ _ _ _).effect (inv.ensureSess a) stepped (fun id member => ?_) rfl
      rw [List.mem_singleton.mp member]
      exact .inr ⟨e, now, rfl, not_not.mp isTrade, rfl⟩
  | archiveTrade a m id now =>
    refine ⟨_, view_ensureSess a, rfl, inv.ensureSess a, ?_⟩
    simp only [step, call, Outcome.state_map, archiveTrade] at stepped
    split at stepped
    next =>
      cases stepped
      exact ⟨.same _ _, inv.matches_, inv.execs_⟩
    next e found =>
      refine (doArchiveTrade_spec _ _ _ _ _).effect (inv.ensureSess a) stepped (fun id member => ?_) rfl
      rw [List.mem_singleton.mp member]
      exact .inl ⟨_, e, found, .inr rfl⟩
  | archiveTrades a m ids now =>
    refine ⟨_, view_ensureSess a, rfl, inv.ensureSess a, ?_⟩
    simp only [step, call, Outcome.state_map] at stepped
    exact (archiveTrades_spec _ a m ids now).effect (inv.ensureSess a) stepped rfl
  | pop =>
    cases stepped
    exact ⟨app, rfl, rfl, inv, .posted rfl (MsgQueue.archived_pop _) rfl (MsgQueue.silent_pop _), inv.matches_, inv.execs_⟩

/-- Every step keeps the invariant. -/
theorem Effect.inv (inv : app.Inv) (effect : Effect app op app') (clear : app'.Clear) : app'.Inv := by
  suffices kept : app'.view.Live ∧ app'.view.Complete ∧ app'.view.Ids from ⟨kept.1, kept.2.1, kept.2.2, clear.1, clear.2⟩
  cases effect with
  | idle grown view execs =>
    rw [view]
    exact ⟨inv.live, inv.complete, inv.ids.kept (.refl _) grown⟩
  | posted view archived execs silent =>
    rw [view]
    exact ⟨inv.live, inv.complete, inv.ids⟩
  | @created a m ref side lots ticks minLots now busDay _ v checked opened commits =>
    refine ⟨commits.next ?_, commits.complete ?_, ?_⟩
    · rw [opened.view]
      exact opened.placed.live
    · rw [opened.view]
      exact opened.placed.complete
    · obtain ⟨o, incoming⟩ : ∃ o, o = app.incoming a m ref side lots ticks minLots now := ⟨_, rfl⟩
      rw [← incoming] at opened commits
      obtain ⟨n, count⟩ : ∃ n, n = (app.incomingFills m o).length := ⟨_, rfl⟩
      have maxId : v.maxId = update app.view.maxId m (app.view.maxId m + 1 + 2 * n) := by rw [opened.view, count]
      have new : Ids (app.heap.newOrder o) v.maxId := by
        refine inv.ids.newOrder ?_ (by rw [incoming]; rfl) ?_
        · rw [maxId]
          exact grown_update (by omega)
        · rw [maxId, incoming]
          show app.view.maxId m + 1 ≤ update app.view.maxId m _ m
          rw [update_self]
          omega
      exact (new.kept (opened.placed.kept.trans commits.kept)) fun n => by rw [commits.maxId]
  | changed held journaled changes execs =>
    refine ⟨changes.next inv.live, changes.complete inv.complete, ?_⟩
    exact inv.ids.kept changes.kept fun n => by
      rw [changes.maxId]
      exact grown_update (by omega) n
  | traded traded =>
    cases traded with
    | oneSided alone journal view matches_ execs_ execs =>
      rw [view]
      exact ⟨inv.live, inv.complete, inv.ids.kept (.refl _) (grown_update (by omega))⟩
    | twoSided paired journal view matches_ execs_ execs =>
      rw [view]
      exact ⟨inv.live, inv.complete, inv.ids.kept (.refl _) (grown_update (by omega))⟩
  | archived view archived owner execs silent =>
    rw [view]
    exact ⟨inv.live, inv.complete, inv.ids⟩

/-- An engine without markets. -/
theorem Inv.make (capacity maxExecs : Nat) : (App.make capacity maxExecs).Inv where
  live :=
    { wf := fun _ s => by cases s <;> exact .empty _ _
      market := fun _ s _ member => by cases s <;> cases member
      resdLots := fun _ s _ member => by cases s <;> cases member
      balance := fun _ s _ member => by cases s <;> cases member
      filed := fun _ s _ member => by cases s <;> cases member
      booked := fun _ _ _ found => by cases found
      refs := fun _ _ _ found => by cases found }
  complete _ present := by cases present
  ids :=
    { nonneg := fun _ => le_rfl
      positive := fun _ present => by cases present
      bounded := fun _ present => by cases present
      unique := fun _ _ present => by cases present }
  matches_ := rfl
  execs_ := rfl

theorem Inv.step (inv : app.Inv) (stepped : app.step op = some app') : app'.Inv := by
  obtain ⟨_, _, _, inv₀, effect, clear⟩ := step_effect inv stepped
  exact effect.inv inv₀ clear

theorem Inv.run {Allowed : App → Op → Prop} {ops : List Op} (inv : app.Inv) (run : Run App.step Allowed app ops app') :
    app'.Inv :=
  run.invariant (fun _ _ _ inv _ stepped => inv.step stepped) inv

end Swirly.App
