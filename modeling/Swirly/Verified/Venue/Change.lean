import Swirly.Verified.Atomic
import Swirly.Verified.Venue.Create

/-!
# Changes in the exchange

Revising and cancelling, by an id, by a reference and by a list of ids.  The overloads of the engine do to the venue what one
list of amendments does; a call that throws uses up the ids of the orders that passed the check before it.
-/

namespace Swirly

open Function MarketSide

theorem MsgQueue.createExecs_single (mq : MsgQueue) (e : Exec) : mq.createExecs [e] = mq.createExec e := by
  simp only [createExecs, reserve, List.length_singleton, List.foldlM_cons, List.foldlM_nil]
  by_cases full : mq.capacity - mq.size < 1
  · rw [if_pos full, createExec, post, if_neg (by omega)]
  · rw [if_neg full]
    cases mq.createExec e <;> rfl

namespace Venue

variable {v w : Venue} {a : Symbol} {m : Int} {change : App.Change}

@[simp] theorem burn_zero : v.burn m 0 = v := by simp [burn]

theorem find_congr (book : v.book m = w.book m) (id : Int) : v.find a m id = w.find a m id := by
  simp only [find, orders, book]

/-- The check only looks at the book. -/
theorem stage_congr (book : v.book m = w.book m) (ids : List Int) : v.stage a m change ids = w.stage a m change ids := by
  induction ids with
  | nil => rfl
  | cons id ids inductionHypothesis => simp only [stage, find_congr book, inductionHypothesis]

end Venue

namespace App

variable {app app' : App} {a : Symbol} {m now : Int} {change : Change} {p : OrderPtr} {ps : List OrderPtr} {ids : List Int}

/-- The order as the outside sees it. -/
def shown (app : App) (p : OrderPtr) : Order := (app.order p).unlinked

theorem Change.check_unlinked (change : Change) (o : Order) : change.check o.unlinked = change.check o := by
  cases change <;> rfl

theorem find_shown (live : app.view.Live) (unique : app.view.Ids) (id : Int) :
    app.venue.find a m id = ((app.view.orders a).find (idKey m id)).map app.shown :=
  View.find_venue live unique a m id

theorem stage_cons_accepted (live : app.view.Live) (unique : app.view.Ids) {id : Int} (accepts : Accepts app a m change id p) :
    app.venue.stage a m change (id :: ids) =
      ((app.venue.stage a m change ids).1 + 1, (app.venue.stage a m change ids).2.map (app.shown p :: ·)) := by
  rw [Venue.stage, find_shown live unique, accepts.found, Option.map_some]
  simp only [shown, Change.check_unlinked, accepts.checked]

/-- All orders pass. -/
theorem stage_accepted (inv : app.Inv) (accepted : List.Forall₂ (Accepts app a m change) ids ps) :
    app.venue.stage a m change ids = (ps.length, .ok (ps.map app.shown)) := by
  induction accepted with
  | nil => rfl
  | cons first _ inductionHypothesis =>
    rw [stage_cons_accepted inv.live inv.ids first, inductionHypothesis]
    rfl

/-- The check stops where the loop of the engine throws, with as many ids given out. -/
theorem stage_rejected (live : app.view.Live) (unique : app.view.Ids) {resp : Response} {e : Exception}
    (thrown : stageChanges a m change now ids app resp = .throw e app') :
    ∃ n : Nat, app.venue.stage a m change ids = (n, .error e) ∧ app'.view.maxId m = app.view.maxId m + n := by
  induction ids generalizing app resp with
  | nil => cases thrown
  | cons id ids inductionHypothesis =>
    rw [stageChanges] at thrown
    cases found : (app.sess a).orders.find (idKey m id) with
    | none =>
      rw [found] at thrown
      cases thrown
      refine ⟨0, ?_, (Int.add_zero _).symm⟩
      rw [Venue.stage, find_shown live unique, show (app.view.orders a).find (idKey m id) = none from found, Option.map_none]
    | some p =>
      have inIndex : (app.view.orders a).find (idKey m id) = some p := found
      rw [found] at thrown
      cases checked : change.check (app.order p) with
      | some stop =>
        simp only [checked] at thrown
        cases thrown
        refine ⟨0, ?_, (Int.add_zero _).symm⟩
        rw [Venue.stage, find_shown live unique, inIndex, Option.map_some]
        simp only [shown, Change.check_unlinked, checked]
      | none =>
        simp only [checked] at thrown
        obtain ⟨x, report⟩ : ∃ x, x = change.report (.make (app.order p) (app.view.maxId m + 1) now) := ⟨_, rfl⟩
        have reported : Reported app m [x] ((app.allocId m).2.newExec x).2 :=
          .one app m (by rw [report]; exact change.report_unstamped _ _ _)
        obtain ⟨app₁, made⟩ : ∃ app₁, app₁ = ((app.allocId m).2.newExec x).2 := ⟨_, rfl⟩
        rw [← made] at reported
        have maxId₁ : app₁.view.maxId m = app.view.maxId m + 1 := by
          rw [reported.view]
          exact update_self _ _ _
        have live₁ : app₁.view.Live := by
          rw [reported.view]
          exact live
        have unique₁ : app₁.view.Ids := by
          rw [reported.view]
          exact Ids.kept unique (.refl _) (grown_update (by simp))
        have book₁ : app₁.venue.book m = app.venue.book m := by
          rw [venue, reported.view]
          rfl
        rw [report] at made
        obtain ⟨n, stopped, last⟩ := inductionHypothesis live₁ unique₁ (made ▸ thrown)
        rw [Venue.stage_congr book₁] at stopped
        refine ⟨n + 1, ?_, by rw [last, maxId₁]; push_cast; omega⟩
        rw [stage_cons_accepted live unique ⟨inIndex, checked⟩, stopped]
        rfl

/-! ## The same amendments -/

theorem changeReports_shown (change : Change) (now id : Int) (ps : List OrderPtr) :
    Venue.changeReports change now id (ps.map app.shown) = reportsOf app.heap change now id ps := by
  induction ps generalizing id with
  | nil => rfl
  | cons p ps inductionHypothesis =>
    rw [List.map_cons, Venue.changeReports, reportsOf, inductionHypothesis]
    rfl

theorem changed_unlinked (change : Change) (o : Order) (now : Int) :
    Venue.changed change now o.unlinked = (change.apply o now).unlinked := by
  cases change <;> rfl

theorem Changed.reports {v v' : View} {e : ExecPtr} (changed : Changed change now p e v v') : v'.reports = v.reports := by
  obtain ⟨-, h, x, -, rfl⟩ := changed
  simp

theorem Changed.terms {v v' : View} {e : ExecPtr} (changed : Changed change now p e v v') : v'.terms = v.terms := by
  obtain ⟨-, h, x, -, rfl⟩ := changed
  simp

theorem Changed.venue {v v' : View} {e : ExecPtr} (listed : Int → Option (Symbol × Int × Nat))
    (changed : Changed change now p e v v') (unique : v.Ids) :
    v'.venue listed = (v.venue listed).apply (v.heap.order p).marketId change now (v.heap.order p).unlinked (v.report e) := by
  obtain ⟨live, h, x, shrinks, rfl⟩ := changed
  rw [View.venue_pushExec, shrinks.venue listed live unique (changed_unlinked change _ now)]
  simp only [View.report, View.reports_shrink]
  rfl

/-- The commit loop amends the orders one after the other. -/
theorem Changes.venue {es : List ExecPtr} {v v' : View} (listed : Int → Option (Symbol × Int × Nat))
    (changes : Changes change now (es.zip ps) v v') (unique : v.Ids) (nodup : ps.Nodup) (length : es.length = ps.length)
    (home : ∀ p ∈ ps, (v.heap.order p).marketId = m) :
    v'.venue listed = ((ps.map fun p => (v.heap.order p).unlinked).zip (es.map v.report)).foldl
      (fun w x => w.apply m change now x.1 x.2) (v.venue listed) := by
  induction ps generalizing es v with
  | nil =>
    rw [List.zip_nil_right] at changes
    cases changes
    rfl
  | cons p ps inductionHypothesis =>
    cases es with
    | nil => simp at length
    | cons e es =>
      rw [List.zip_cons_cons] at changes
      cases changes with
      | @cons _ _ _ v₁ _ first rest =>
        obtain ⟨differ, nodup⟩ := List.nodup_cons.mp nodup
        obtain ⟨homeFirst, homeRest⟩ := List.forall_mem_cons.mp home
        have others : ∀ q ∈ ps, v₁.heap.order q = v.heap.order q := fun q member =>
          first.order_ne fun same : q = p => differ (same ▸ member)
        have reports : v₁.report = v.report := by
          funext d
          rw [View.report, View.report, first.reports]
        have applied := first.venue listed unique
        rw [homeFirst] at applied
        rw [List.map_cons, List.map_cons, List.zip_cons_cons, List.foldl_cons, ← applied,
          inductionHypothesis rest (Ids.kept unique first.kept fun n => by rw [first.maxId]) nodup (by simpa using length)
            fun q member => by rw [others q member]; exact homeRest q member, reports,
          List.map_congr_left fun q member => congrArg Order.unlinked (others q member)]

theorem Changes.reports {xs : List (ExecPtr × OrderPtr)} {v v' : View} (changes : Changes change now xs v v') :
    v'.reports = v.reports := by
  induction changes with
  | nil => rfl
  | cons first _ inductionHypothesis => exact inductionHypothesis.trans first.reports

theorem Changes.terms {xs : List (ExecPtr × OrderPtr)} {v v' : View} (changes : Changes change now xs v v') :
    v'.terms = v.terms := by
  induction changes with
  | nil => rfl
  | cons first _ inductionHypothesis => exact inductionHypothesis.trans first.terms

theorem Restored.venue {given : Int} (listed : Int → Option (Symbol × Int × Nat)) (restored : Restored app m given app') {n : Nat}
    (ids : given = app.view.maxId m + n) :
    app'.view.venue listed = (app.view.venue listed).burn m n := by
  rw [restored.view, ids]
  rfl

theorem changeOrders_full (full : app.mq.createExecs (reportsOf app.heap change now (app.view.maxId m) ps) = none)
    (restored : Restored app m (app.view.maxId m + ps.length) app') (terms : app'.terms = app.terms) :
    (.error .insufficientQueueCapacity, app'.venue) = app.venue.changeOrders m change now (ps.map app.shown) := by
  have reports : Venue.changeReports change now (app.venue.maxId m) (ps.map app.shown) =
      reportsOf app.heap change now (app.view.maxId m) ps := changeReports_shown change now _ ps
  rw [Venue.changeOrders, reports, show app.venue.mq = app.mq from rfl, full, venue, terms, restored.venue _ rfl, List.length_map]
  rfl

theorem changeOrders_done (inv : app.Inv) (reported : app.view.Reported) (nodup : ps.Nodup)
    (home : ∀ p ∈ ps, (app.order p).marketId = m) {mq : MsgQueue} {resp : Response}
    (journal : app.mq.createExecs (reportsOf app.heap change now (app.view.maxId m) ps) = some mq)
    (changes : Changes change now (pairs app.execs.fresh ps) { app.view with
      mq
      maxId := update app.view.maxId m (app.view.maxId m + ps.length)
      reports := app.view.reports.allocs (reportsOf app.heap change now (app.view.maxId m) ps) } app'.view)
    (response : resp = { Response.empty.setMarket m with
      orders := ps, execs := (List.range ps.length).map (app.execs.fresh + ·) }) (terms : app'.terms = app.terms) :
    (.ok (app'.answer (.response resp)), app'.venue) = app.venue.changeOrders m change now (ps.map app.shown) := by
  obtain ⟨es, reports⟩ : ∃ es, es = reportsOf app.heap change now (app.view.maxId m) ps := ⟨_, rfl⟩
  have length : es.length = ps.length := by rw [reports, length_reportsOf]
  have same : Venue.changeReports change now (app.venue.maxId m) (ps.map app.shown) = es := by
    rw [reports]
    exact changeReports_shown change now _ ps
  rw [← reports] at journal changes
  obtain ⟨v, start⟩ : ∃ v : View, v = { app.view with
    mq, maxId := update app.view.maxId m (app.view.maxId m + ps.length), reports := app.view.reports.allocs es } := ⟨_, rfl⟩
  rw [← start] at changes
  have heap : v.heap = app.heap := by rw [start]; rfl
  have read : ((List.range ps.length).map (app.execs.fresh + ·)).map v.report = es := by
    have fresh : app.view.reports.fresh = app.execs.fresh := OrdMap.fresh_map _ app.execs
    have back := OrdMap.map_get_allocs app.view.reports es
    rw [length, fresh] at back
    rw [start]
    exact back
  have unique : v.Ids := by
    rw [start]
    exact Ids.kept inv.ids (.refl _) (grown_update (by omega))
  have venue₀ : v.venue app.terms = { app.venue.burn m ps.length with mq } := by
    have given : ({ app.view with mq, maxId := update app.view.maxId m (app.view.maxId m + ps.length) } : View).Reported :=
      ⟨reported.history, reported.trades⟩
    have allocated := View.venue_allocs app.terms given es
    rw [start, allocated]
    rfl
  have venue' := Changes.venue app.terms changes unique nodup (by simp)
    (fun p member => by rw [heap]; exact home p member)
  rw [read, heap, venue₀] at venue'
  have orders : ∀ p ∈ ps, (app'.order p).unlinked = Venue.changed change now (app.shown p) := by
    intro p member
    obtain ⟨level, order⟩ := changes.order (by rw [pairs_snd]; exact member)
    rw [heap] at order
    rw [App.order, show app'.heap.order p = _ from order, Order.unlinked_level, shown, changed_unlinked]
    rfl
  have execs : ((List.range ps.length).map (app.execs.fresh + ·)).map app'.view.report = es := by
    rw [← read]
    refine List.map_congr_left fun e _ => ?_
    rw [View.report, View.report, changes.reports]
  rw [Venue.changeOrders, same, show app.venue.mq = app.mq from rfl, journal, List.length_map, venue, terms, venue', response]
  simp only [answer, Response.empty, Response.setMarket, execs, List.map_map, Option.map_none]
  rw [List.map_congr_left orders]
  rfl

/-! ## The calls -/

theorem nodup_of_accepted (live : app.view.Live) (nodup : ids.Nodup) (accepted : List.Forall₂ (Accepts app a m change) ids ps) :
    ps.Nodup ∧ ∀ p ∈ ps, (app.order p).marketId = m := by
  have named : ps.map (fun p => (app.order p).id) = ids ∧ ∀ p ∈ ps, (app.order p).marketId = m := by
    clear nodup
    induction accepted with
    | nil => simp
    | cons first _ inductionHypothesis =>
      rw [List.map_cons, (first.key live).1, inductionHypothesis.1, List.forall_mem_cons]
      exact ⟨rfl, (first.key live).2, inductionHypothesis.2⟩
  exact ⟨.of_map _ (by rw [named.1]; exact nodup), named.2⟩

/-- The ids determine the orders. -/
theorem accepted_unique {qs : List OrderPtr} (accepted : List.Forall₂ (Accepts app a m change) ids ps)
    (again : List.Forall₂ (Accepts app a m change) ids qs) : ps = qs := by
  induction accepted generalizing qs with
  | nil => exact (List.forall₂_nil_left_iff.mp again).symm
  | cons first _ inductionHypothesis =>
    cases again with
    | cons first' rest =>
      rw [Option.some.inj (first.found.symm.trans first'.found), inductionHypothesis rest]

theorem changeByIds_venue (inv : app.Inv) (reported : app.view.Reported) (nodup : ids.Nodup)
    (terms : ∀ last, (app.changeByIds a m change ids now).state = some last → last.terms = app.terms) :
    ((app.changeByIds a m change ids now).map .response).seen = some (app.venue.changeByIds a m change ids now) := by
  cases stageChanges_spec a m change now ids app (Response.empty.setMarket m) with
  | inr thrown =>
    -- The first loop throws; it has only given out ids.
    obtain ⟨e, es, app₁, staged, made, -⟩ := thrown
    have execs : (Response.empty.setMarket m).execs ++ (List.range es.length).map (app.execs.fresh + ·) =
        (List.range es.length).map (app.execs.fresh + ·) := List.nil_append _
    rw [execs] at staged
    obtain ⟨last, released⟩ : ∃ last, last = app₁.releaseExecs ((List.range es.length).map (app.execs.fresh + ·)) := ⟨_, rfl⟩
    have restored : Restored app m (app.view.maxId m + es.length) last := released ▸ made.release inv
    have outcome : app.changeByIds a m change ids now = .throw e last := by rw [changeByIds, staged, released]
    obtain ⟨n, stopped, given⟩ := stage_rejected inv.live inv.ids (released ▸ staged)
    have same : n = es.length := by
      rw [restored.view] at given
      simp only [update_self] at given
      omega
    rw [outcome, Outcome.map, Outcome.seen, Venue.changeByIds, stopped, venue, terms last (by rw [outcome]; rfl),
      restored.venue _ rfl, same]
    rfl
  | inl done =>
    obtain ⟨ps, -, -, -, accepted, -⟩ := done
    obtain ⟨distinct, home⟩ := nodup_of_accepted inv.live nodup accepted
    have ended := changeByIds_spec inv a m change ids now
    have staged := stage_accepted inv accepted
    have unique : ∀ qs, List.Forall₂ (Accepts app a m change) ids qs → qs = ps := fun qs again =>
      accepted_unique again accepted
    cases outcome : app.changeByIds a m change ids now with
    | fault =>
      rw [outcome] at ended
      cases ended with
      | @fault qs _ p again journal twice closes =>
        rw [unique qs again] at twice
        exact absurd (List.nodup_iff_count_le_one.mp distinct p) (by omega)
    | throw e last =>
      have kept := terms last (by rw [outcome]; rfl)
      rw [outcome] at ended
      cases ended with
      | rejected missing restored =>
        obtain ⟨id, member, none_accepted⟩ := missing
        obtain ⟨p, accepts⟩ := accepted_of_mem accepted member
        exact absurd accepts (none_accepted p)
      | @unjournaled _ qs again full restored =>
        rw [unique qs again] at full restored
        rw [Outcome.map, Outcome.seen, Venue.changeByIds, staged]
        simp only
        rw [← changeOrders_full full restored kept]
    | ok resp last =>
      have kept := terms last (by rw [outcome]; rfl)
      rw [outcome] at ended
      cases ended with
      | @committed _ _ qs mq again journal repeats changes matches_ execs_ execs response =>
        rw [unique qs again] at journal changes response
        rw [Outcome.map, Outcome.seen, Venue.changeByIds, staged]
        simp only
        rw [← changeOrders_done inv reported distinct home journal changes response kept]

/-- The overloads that name one order, once it is found. -/
theorem changeOrder_venue (inv : app.Inv) (reported : app.view.Reported) (held : app.Held a p)
    (home : (app.order p).marketId = m)
    (terms : ∀ last, (app.changeOrder a m change p now).state = some last → last.terms = app.terms) :
    ((app.changeOrder a m change p now).map .response).seen = some
      (match change.check (app.shown p) with
      | some e => (.error e, app.venue)
      | none => app.venue.changeOrders m change now [app.shown p]) := by
  have ended := changeOrder_spec inv held m change now
  have checkedAs : change.check (app.shown p) = change.check (app.order p) := Change.check_unlinked _ _
  have single : ∀ mq : MsgQueue, mq.createExec (app.reportOf m change p now) =
      mq.createExecs (reportsOf app.heap change now (app.view.maxId m) [p]) := fun mq => (mq.createExecs_single _).symm
  rw [checkedAs]
  cases outcome : app.changeOrder a m change p now with
  | fault =>
    rw [outcome] at ended
    cases ended with
    | fault checked elsewhere closes => exact absurd home elsewhere
  | throw e last =>
    have kept := terms last (by rw [outcome]; rfl)
    rw [outcome] at ended
    cases ended with
    | rejected checked =>
      rw [checked]
      rfl
    | unjournaled checked full restored =>
      rw [checked, Outcome.map, Outcome.seen]
      simp only
      rw [changeOrders_full (single _ ▸ full) restored kept]
      rfl
  | ok resp last =>
    have kept := terms last (by rw [outcome]; rfl)
    rw [outcome] at ended
    cases ended with
    | committed checked journal changed matches_ execs_ execs response =>
      rw [checked, Outcome.map, Outcome.seen]
      simp only
      rw [changeOrders_done inv reported (List.nodup_singleton p) (by simpa using home) (single _ ▸ journal)
        (.cons changed .nil) response kept]
      rfl

theorem changeById_venue (inv : app.Inv) (reported : app.view.Reported) {id : Int}
    (terms : ∀ last, (app.changeById a m change id now).state = some last → last.terms = app.terms) :
    ((app.changeById a m change id now).map .response).seen = some (app.venue.changeByIds a m change [id] now) := by
  rw [changeById] at terms ⊢
  rw [Venue.changeByIds, Venue.stage, find_shown inv.live inv.ids]
  cases found : (app.sess a).orders.find (idKey m id) with
  | none =>
    rw [show (app.view.orders a).find (idKey m id) = none from found, Option.map_none]
    simp only [Outcome.map, Outcome.seen, Venue.burn_zero]
  | some p =>
    rw [found] at terms
    obtain ⟨accnt, key, member⟩ := inv.live.booked a _ p found
    rw [show (app.view.orders a).find (idKey m id) = some p from found, Option.map_some,
      changeOrder_venue inv reported ⟨accnt, member⟩ (idKey_inj.mp key).1 terms]
    simp only
    cases change.check (app.shown p) with
    | some e => simp only [Venue.burn_zero]
    | none => rfl

theorem changeByRef_venue (inv : app.Inv) (reported : app.view.Reported) (filed : app.view.RefsFiled) {ref : Bytes}
    (home : ∀ p, (app.view.refs a).find ref = some p → (app.order p).marketId = m)
    (terms : ∀ last, (app.changeByRef a m change ref now).state = some last → last.terms = app.terms) :
    ((app.changeByRef a m change ref now).map .response).seen = some (app.venue.changeByRef a m change ref now) := by
  rw [changeByRef] at terms ⊢
  rw [Venue.changeByRef, venue, View.findRef_venue inv.live filed]
  cases found : (app.sess a).refIdx.find ref with
  | none =>
    rw [show (app.view.refs a).find ref = none from found]
    rfl
  | some p =>
    rw [found] at terms
    have inIndex : (app.view.refs a).find ref = some p := found
    obtain ⟨-, -, accnt, member⟩ := inv.live.refs a _ p inIndex
    have kept : ((app.view.refs a).find ref).filter (fun p => (app.view.heap.order p).marketId = m) = some p :=
      Option.filter_eq_some_iff.mpr ⟨inIndex, decide_eq_true (home p inIndex)⟩
    rw [kept, Option.map_some, changeOrder_venue inv reported ⟨accnt, member⟩ (home p inIndex) terms]
    rfl

end App

end Swirly
