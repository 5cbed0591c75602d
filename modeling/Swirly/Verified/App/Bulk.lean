import Swirly.Verified.App.Change

/-!
# Changes by a list of ids

The first loop checks every order against the state before the call; the second loop looks each order up again in
the state that its own iterations have changed.  A repeated id is found again only when the order stays open.
-/

namespace Swirly.App

open Function MarketSide

variable {app app' : App} {a : Symbol} {m now : Int} {change : Change} {p q : OrderPtr} {e : ExecPtr} {id : Int}

/-- The first loop accepts the order `p` for the id. -/
structure Accepts (app : App) (a : Symbol) (m : Int) (change : Change) (id : Int) (p : OrderPtr) : Prop where
  found : (app.view.orders a).find (idKey m id) = some p
  checked : change.check (app.order p) = none

/-- The reports of changes, with the ids after `id`. -/
def reportsOf (h : Heap) (change : Change) (now : Int) : Int → List OrderPtr → List Exec
  | _, [] => []
  | id, p :: ps => change.report (.make (h.order p) (id + 1) now) :: reportsOf h change now (id + 1) ps

@[simp] theorem length_reportsOf (h : Heap) (change : Change) (now id : Int) (ps : List OrderPtr) :
    (reportsOf h change now id ps).length = ps.length := by
  induction ps generalizing id with
  | nil => rfl
  | cons p ps inductionHypothesis => rw [reportsOf, List.length_cons, List.length_cons, inductionHypothesis]

/-- The orders of the reports are the orders themselves. -/
theorem reportsOf_orderId (h : Heap) (change : Change) (now id : Int) (ps : List OrderPtr) :
    (reportsOf h change now id ps).map Exec.orderId = ps.map fun p => (h.order p).id := by
  induction ps generalizing id with
  | nil => rfl
  | cons p ps inductionHypothesis =>
    rw [reportsOf, List.map_cons, List.map_cons, inductionHypothesis]
    cases change <;> rfl

theorem stageChanges_spec (a : Symbol) (m : Int) (change : Change) (now : Int) (ids : List Int) (app : App)
    (resp : Response) :
    (∃ ps app' resp', stageChanges a m change now ids app resp = .ok resp' app' ∧
      List.Forall₂ (Accepts app a m change) ids ps ∧
      Reported app m (reportsOf app.heap change now (app.view.maxId m) ps) app' ∧
      resp' = { resp with
        orders := resp.orders ++ ps
        execs := resp.execs ++ (List.range ps.length).map (app.execs.fresh + ·) }) ∨
    (∃ e es app', stageChanges a m change now ids app resp =
        .throw e (app'.releaseExecs (resp.execs ++ (List.range es.length).map (app.execs.fresh + ·))) ∧
      Reported app m es app' ∧ ∃ id ∈ ids, ∀ p, ¬ Accepts app a m change id p) := by
  induction ids generalizing app resp with
  | nil => exact .inl ⟨[], app, resp, rfl, .nil, .nil app m, by simp⟩
  | cons id ids inductionHypothesis =>
    rw [stageChanges]
    cases found : (app.sess a).orders.find (idKey m id) with
    | none =>
      refine .inr ⟨.orderNotFound id, [], app, ?_, .nil app m, id, List.mem_cons_self, fun p accepts => ?_⟩
      · simp
      · exact absurd (found.symm.trans accepts.found) (by simp)
    | some p =>
      cases checked : change.check (app.order p) with
      | some e =>
        refine .inr ⟨e, [], app, ?_, .nil app m, id, List.mem_cons_self, fun q accepts => ?_⟩
        · simp [checked]
        · obtain rfl : p = q := Option.some.inj (found.symm.trans accepts.found)
          exact absurd (checked.symm.trans accepts.checked) (by simp)
      | none =>
        simp only [checked]
        obtain ⟨x, report⟩ : ∃ x, x = change.report (.make (app.order p) (app.view.maxId m + 1) now) := ⟨_, rfl⟩
        obtain ⟨app₁, made⟩ : ∃ app₁, app₁ = ((app.allocId m).2.newExec x).2 := ⟨_, rfl⟩
        have reported : Reported app m [x] app₁ := by
          rw [made]
          exact .one app m (by rw [report]; exact change.report_unstamped _ _ _)
        have maxId₁ : app₁.view.maxId m = app.view.maxId m + 1 := by
          rw [reported.view]
          exact update_self _ _ _
        have fresh₁ : app₁.execs.fresh = app.execs.fresh + 1 := by rw [reported.execs]; exact OrdMap.fresh_allocs _ _
        -- The later orders are accepted as before: neither the index nor the orders have changed.
        have accepts : ∀ i q, Accepts app₁ a m change i q ↔ Accepts app a m change i q := fun i q => by
          have orders : app₁.view.orders = app.view.orders := by rw [reported.view]
          constructor
          · rintro ⟨found, checked⟩
            exact ⟨orders ▸ found, by rw [App.order, ← reported.heap]; exact checked⟩
          · rintro ⟨found, checked⟩
            exact ⟨orders ▸ found, by rw [App.order, reported.heap]; exact checked⟩
        have range : ∀ n, (List.range (n + 1)).map (app.execs.fresh + ·) =
            [app.execs.fresh] ++ (List.range n).map (app₁.execs.fresh + ·) := fun n => by
          rw [Nat.add_comm, List.range_add, List.map_append, List.map_map, fresh₁]
          congr 1
          exact List.map_congr_left fun i _ => (Nat.add_assoc _ 1 i).symm
        have next := inductionHypothesis app₁ ((resp.insertOrder p).insertExec app.execs.fresh)
        rw [report] at made
        cases next with
        | inl done =>
          obtain ⟨ps, app', resp', staged, rest, later, response⟩ := done
          refine .inl ⟨p :: ps, app', resp', ?_, ?_, ?_, ?_⟩
          · rw [← staged, made]
            rfl
          · exact .cons ⟨found, checked⟩ (rest.imp fun i q => (accepts i q).mp)
          · rw [reported.heap, maxId₁] at later
            have whole := reported.trans later
            rw [report] at whole
            exact whole
          · rw [response, List.length_cons, range]
            simp [Response.insertExec, Response.insertOrder]
        | inr thrown =>
          obtain ⟨e, es, app', staged, later, id', member, missing⟩ := thrown
          refine .inr ⟨e, [x] ++ es, app', ?_, reported.trans later, id', List.mem_cons_of_mem _ member,
            fun q accepted => missing q ((accepts _ q).mpr accepted)⟩
          rw [List.length_append, List.length_singleton, Nat.add_comm, range]
          rw [show ∀ xs ys : List ExecPtr, resp.execs ++ (xs ++ ys) = (resp.execs ++ xs) ++ ys from
            fun _ _ => (List.append_assoc _ _ _).symm]
          rw [show resp.execs ++ [app.execs.fresh] = ((resp.insertOrder p).insertExec app.execs.fresh).execs from rfl,
            ← staged, made]
          rfl

/-- The commit loop: changes one after the other. -/
inductive Changes (change : Change) (now : Int) : List (ExecPtr × OrderPtr) → View → View → Prop
  | nil {v : View} : Changes change now [] v v
  | cons {x : ExecPtr × OrderPtr} {xs : List (ExecPtr × OrderPtr)} {v v' v'' : View}
      (first : Changed change now x.2 x.1 v v') (rest : Changes change now xs v' v'') :
      Changes change now (x :: xs) v v''

/-- The commit loop looks up the orders of the pairs. -/
structure Lookup (app : App) (a : Symbol) (m : Int) (change : Change) (x : ExecPtr × OrderPtr) : Prop where
  found : (app.view.orders a).find (idKey m (app.exec x.1).orderId) = some x.2
  fits : change.Fits (app.order x.2)

theorem Lookup.held {x : ExecPtr × OrderPtr} (live : app.view.Live) (lookup : Lookup app a m change x) :
    app.Held a x.2 ∧ (app.order x.2).marketId = m := by
  obtain ⟨accnt, key, member⟩ := live.booked a _ _ lookup.found
  exact ⟨⟨accnt, member⟩, (idKey_inj.mp key).1⟩

theorem Change.fits_apply {o : Order} {level : Option LevelPtr} (fits : change.Fits o) :
    change.Fits { change.apply o now with level } := by
  cases change with
  | revise lots => exact fits
  | cancel => trivial

theorem Change.stays_apply {o : Order} {level : Option LevelPtr} (stays : change.Stays o) :
    change.Stays { change.apply o now with level } := by
  cases change with
  | cancel => exact stays
  | revise lots =>
    have stays : o.lots - lots < o.resdLots := stays
    show lots - lots < o.resdLots - (o.lots - lots)
    omega

/-- One iteration of the commit loop. -/
theorem Lookup.step {x : ExecPtr × OrderPtr} (live : app.view.Live) (lookup : Lookup app a m change x) (now : Int) :
    ∃ app', app.commitChange a m change x.2 x.1 now = some app' ∧ Changed change now x.2 x.1 app.view app'.view ∧
      app'.execs = app.execs ∧ app'.matches_ = app.matches_ ∧ app'.execs_ = app.execs_ :=
  commitChange_spec live (lookup.held live).1 lookup.fits (.inl (lookup.held live).2) x.1 now

/-- A later lookup finds its order, unless this iteration has removed it. -/
theorem Lookup.next {x y : ExecPtr × OrderPtr} (lookup : Lookup app a m change y)
    (changed : Changed change now x.2 x.1 app.view app'.view) (execs : app'.execs = app.execs)
    (stays : y.2 = x.2 → change.Stays (app.order x.2)) : Lookup app' a m change y where
  found := by
    have exec : app'.exec y.1 = app.exec y.1 := congrArg (fun execs : Store Exec => execs.get y.1) execs
    rw [exec, changed.find_orders]
    exact ⟨lookup.found, stays⟩
  fits := by
    cases eq_or_ne y.2 x.2 with
    | inl same =>
      obtain ⟨level, order⟩ := changed.order
      rw [same, show app'.order x.2 = _ from order]
      exact Change.fits_apply (same ▸ lookup.fits)
    | inr differ =>
      rw [show app'.order y.2 = app.order y.2 from changed.order_ne differ]
      exact lookup.fits

theorem commitChanges_spec (live : app.view.Live) (now : Int) (xs : List (ExecPtr × OrderPtr))
    (lookups : ∀ x ∈ xs, Lookup app a m change x)
    (repeats : ∀ p, 2 ≤ (xs.map Prod.snd).count p → change.Stays (app.order p)) :
    ∃ app', commitChanges a m change now (xs.map Prod.fst) app = some app' ∧ Changes change now xs app.view app'.view ∧
      app'.execs = app.execs ∧ app'.matches_ = app.matches_ ∧ app'.execs_ = app.execs_ := by
  induction xs generalizing app with
  | nil => exact ⟨app, rfl, .nil, rfl, rfl, rfl⟩
  | cons x xs inductionHypothesis =>
    have lookup := lookups x List.mem_cons_self
    obtain ⟨app₁, first, changed, execs₁, matches₁, pointers₁⟩ := lookup.step live now
    have later : ∀ y ∈ xs, Lookup app₁ a m change y := fun y member =>
      (lookups y (List.mem_cons_of_mem _ member)).next changed execs₁ fun same => by
        apply repeats
        rw [List.map_cons, List.count_cons_self]
        exact Nat.succ_le_succ (List.count_pos_iff.mpr (same ▸ List.mem_map_of_mem member))
    have laterRepeats : ∀ p, 2 ≤ (xs.map Prod.snd).count p → change.Stays (app₁.order p) := fun p twice => by
      have stays := repeats p (twice.trans (List.count_le_count_cons))
      cases eq_or_ne p x.2 with
      | inl same =>
        obtain ⟨level, order⟩ := changed.order
        rw [same] at stays ⊢
        rw [show app₁.order x.2 = _ from order]
        exact Change.stays_apply stays
      | inr differ => rwa [show app₁.order p = app.order p from changed.order_ne differ]
    obtain ⟨app', rest, changes, execs', matches', pointers'⟩ := inductionHypothesis changed.next later laterRepeats
    refine ⟨app', ?_, .cons changed changes, execs'.trans execs₁, matches'.trans matches₁, pointers'.trans pointers₁⟩
    rw [List.map_cons, commitChanges, show (app.sess a).orders.find (idKey m (app.exec x.1).orderId) = _ from lookup.found]
    simp only [first]
    exact rest

/-- A lookup that has nothing to find stops the loop. -/
theorem commitChanges_none (live : app.view.Live) (es : List ExecPtr)
    (fits : ∀ e ∈ es, ∀ p, (app.view.orders a).find (idKey m (app.exec e).orderId) = some p →
      change.Fits (app.order p))
    (missing : ∃ e ∈ es, (app.view.orders a).find (idKey m (app.exec e).orderId) = none) :
    commitChanges a m change now es app = none := by
  induction es generalizing app with
  | nil =>
    obtain ⟨e, member, -⟩ := missing
    cases member
  | cons e es inductionHypothesis =>
    rw [commitChanges]
    cases found : (app.sess a).orders.find (idKey m (app.exec e).orderId) with
    | none => rfl
    | some p =>
      have lookup : Lookup app a m change (e, p) := ⟨found, fits e List.mem_cons_self p found⟩
      obtain ⟨app₁, first, changed, execs₁, -, -⟩ := lookup.step live now
      have exec : ∀ d, app₁.exec d = app.exec d := fun d => congrArg (fun execs : Store Exec => execs.get d) execs₁
      simp only [first]
      refine inductionHypothesis changed.next (fun d member q foundQ => ?_) ?_
      · rw [exec, changed.find_orders] at foundQ
        have old : Lookup app a m change (d, q) := ⟨foundQ.1, fits d (List.mem_cons_of_mem _ member) q foundQ.1⟩
        exact (old.next changed execs₁ foundQ.2).fits
      · obtain ⟨d, member, none_found⟩ := missing
        cases List.mem_cons.mp member with
        | inl here =>
          rw [here, show (app.view.orders a).find _ = _ from found] at none_found
          cases none_found
        | inr later =>
          refine ⟨d, later, ?_⟩
          rw [exec]
          cases foundQ : (app₁.view.orders a).find (idKey m (app.exec d).orderId) with
          | none => rfl
          | some q =>
            rw [changed.find_orders] at foundQ
            rw [foundQ.1] at none_found
            cases none_found

/-- A repeated order that the first of its changes removes. -/
theorem commitChanges_repeat (live : app.view.Live) (xs : List (ExecPtr × OrderPtr))
    (lookups : ∀ x ∈ xs, Lookup app a m change x) (twice : 2 ≤ (xs.map Prod.snd).count p)
    (closes : ¬ change.Stays (app.order p)) : commitChanges a m change now (xs.map Prod.fst) app = none := by
  induction xs generalizing app with
  | nil => simp at twice
  | cons x xs inductionHypothesis =>
    have lookup := lookups x List.mem_cons_self
    obtain ⟨app₁, first, changed, execs₁, -, -⟩ := lookup.step live now
    have exec : ∀ d, app₁.exec d = app.exec d := fun d => congrArg (fun execs : Store Exec => execs.get d) execs₁
    rw [List.map_cons, commitChanges, show (app.sess a).orders.find (idKey m (app.exec x.1).orderId) = _ from lookup.found]
    simp only [first]
    by_cases gone : ∃ y ∈ xs, y.2 = x.2 ∧ ¬ change.Stays (app.order x.2)
    · -- This iteration has removed an order that a later one looks up.
      obtain ⟨y, member, same, closesX⟩ := gone
      refine commitChanges_none changed.next _ (fun e inside q found => ?_) ⟨y.1, List.mem_map_of_mem member, ?_⟩
      · obtain ⟨z, memberZ, rfl⟩ := List.mem_map.mp inside
        rw [exec, changed.find_orders] at found
        have old : Lookup app a m change (z.1, q) := by
          have known := lookups z (List.mem_cons_of_mem _ memberZ)
          obtain rfl : z.2 = q := Option.some.inj (known.found.symm.trans found.1)
          exact known
        exact (old.next changed execs₁ found.2).fits
      · cases found : (app₁.view.orders a).find (idKey m (app₁.exec y.1).orderId) with
        | none => rfl
        | some q =>
          rw [exec, changed.find_orders] at found
          have known := lookups y (List.mem_cons_of_mem _ member)
          obtain rfl : y.2 = q := Option.some.inj (known.found.symm.trans found.1)
          exact absurd (found.2 same) closesX
    · have stays : ∀ y ∈ xs, y.2 = x.2 → change.Stays (app.order x.2) := fun y member same =>
        Decidable.not_not.mp fun closesX => gone ⟨y, member, same, closesX⟩
      have differ : x.2 ≠ p := fun same => by
        rw [List.map_cons, same, List.count_cons_self] at twice
        obtain ⟨y, member, sameY⟩ := List.mem_map.mp (List.count_pos_iff.mp (Nat.le_of_succ_le_succ twice))
        exact closes (same ▸ stays y member (sameY.trans same.symm))
      rw [List.map_cons, List.count_cons_of_ne differ] at twice
      refine inductionHypothesis changed.next (fun y member => ?_) twice ?_
      · exact (lookups y (List.mem_cons_of_mem _ member)).next changed execs₁ (stays y member)
      · rwa [show app₁.order p = app.order p from changed.order_ne (Ne.symm differ)]

namespace Changes

variable {v v' : View} {xs : List (ExecPtr × OrderPtr)}

theorem next (changes : Changes change now xs v v') (live : v.Live) : v'.Live := by
  induction changes with
  | nil => exact live
  | cons first _ inductionHypothesis => exact inductionHypothesis first.next

theorem complete (changes : Changes change now xs v v') (complete : v.Complete) : v'.Complete := by
  induction changes with
  | nil => exact complete
  | cons first _ inductionHypothesis => exact inductionHypothesis (first.complete complete)

theorem kept (changes : Changes change now xs v v') : Heap.Kept v.heap v'.heap := by
  induction changes with
  | nil => exact .refl _
  | cons first _ inductionHypothesis => exact first.kept.trans inductionHypothesis

theorem maxId (changes : Changes change now xs v v') : v'.maxId = v.maxId := by
  induction changes with
  | nil => rfl
  | cons first _ inductionHypothesis => exact inductionHypothesis.trans first.maxId

theorem order_ne (changes : Changes change now xs v v') {q : OrderPtr} (differ : q ∉ xs.map Prod.snd) :
    v'.heap.order q = v.heap.order q := by
  induction changes with
  | nil => rfl
  | cons first _ inductionHypothesis =>
    obtain ⟨differFirst, differ⟩ := not_or.mp (mt List.mem_cons.mpr differ)
    exact (inductionHypothesis differ).trans (first.order_ne differFirst)

/-- Every order of the list has changed, once or several times to the same effect. -/
theorem order (changes : Changes change now xs v v') {q : OrderPtr} (member : q ∈ xs.map Prod.snd) :
    ∃ level, v'.heap.order q = { change.apply (v.heap.order q) now with level } := by
  induction changes with
  | nil => cases member
  | @cons x xs v _ _ first rest inductionHypothesis =>
    cases eq_or_ne q x.2 with
    | inr differ =>
      obtain ⟨level, order⟩ := inductionHypothesis ((List.mem_cons.mp member).resolve_left differ)
      exact ⟨level, by rw [order, first.order_ne differ]⟩
    | inl same =>
      obtain ⟨level, order⟩ := first.order
      rw [← same] at order
      by_cases again : q ∈ xs.map Prod.snd
      · obtain ⟨level', order'⟩ := inductionHypothesis again
        refine ⟨level', ?_⟩
        rw [order', order]
        have twice := change.apply_apply (v.heap.order q) level now
        exact congrArg (fun o : Order => { o with level := level' }) twice
      · exact ⟨level, (order_ne rest again).trans order⟩

theorem mq (changes : Changes change now xs v v') : v'.mq = v.mq := by
  induction changes with
  | nil => rfl
  | cons first _ inductionHypothesis => exact inductionHypothesis.trans first.mq

theorem sublist (changes : Changes change now xs v v') (n : Int) (t : Side) :
    (v'.side n t).orders.Sublist (v.side n t).orders := by
  induction changes with
  | nil => exact .refl _
  | cons first _ inductionHypothesis => exact inductionHypothesis.trans (first.sublist n t)

end Changes

/-- The pointers of the reports with their orders. -/
def pairs (e : ExecPtr) (ps : List OrderPtr) : List (ExecPtr × OrderPtr) :=
  ((List.range ps.length).map (e + ·)).zip ps

theorem pairs_fst (e : ExecPtr) (ps : List OrderPtr) :
    (pairs e ps).map Prod.fst = (List.range ps.length).map (e + ·) := List.map_fst_zip (by simp)

theorem pairs_snd (e : ExecPtr) (ps : List OrderPtr) : (pairs e ps).map Prod.snd = ps := List.map_snd_zip (by simp)

/-- How the calls with a list of ids end. -/
inductive BulkEnded (app : App) (a : Symbol) (m : Int) (change : Change) (ids : List Int) (now : Int) :
    Outcome Response → Prop
  | rejected {e : Exception} {app' : App} {n : Nat} (missing : ∃ id ∈ ids, ∀ p, ¬ Accepts app a m change id p)
      (restored : Restored app m (app.view.maxId m + n) app') : BulkEnded app a m change ids now (.throw e app')
  | unjournaled {app' : App} {ps : List OrderPtr} (accepted : List.Forall₂ (Accepts app a m change) ids ps)
      (full : app.mq.createExecs (reportsOf app.heap change now (app.view.maxId m) ps) = none)
      (restored : Restored app m (app.view.maxId m + ps.length) app') :
      BulkEnded app a m change ids now (.throw .insufficientQueueCapacity app')
  | committed {resp : Response} {app' : App} {ps : List OrderPtr} {mq : MsgQueue}
      (accepted : List.Forall₂ (Accepts app a m change) ids ps)
      (journal : app.mq.createExecs (reportsOf app.heap change now (app.view.maxId m) ps) = some mq)
      (repeats : ∀ p, 2 ≤ ps.count p → change.Stays (app.order p))
      (changes : Changes change now (pairs app.execs.fresh ps) { app.view with
        mq
        maxId := update app.view.maxId m (app.view.maxId m + ps.length)
        reports := app.view.reports.allocs (reportsOf app.heap change now (app.view.maxId m) ps) } app'.view)
      (matches_ : app'.matches_ = []) (execs_ : app'.execs_ = [])
      (execs : app'.execs = app.execs.allocs (reportsOf app.heap change now (app.view.maxId m) ps))
      (response : resp = { Response.empty.setMarket m with
        orders := ps, execs := (List.range ps.length).map (app.execs.fresh + ·) }) :
      BulkEnded app a m change ids now (.ok resp app')
  | fault {ps : List OrderPtr} {mq : MsgQueue} {p : OrderPtr}
      (accepted : List.Forall₂ (Accepts app a m change) ids ps)
      (journal : app.mq.createExecs (reportsOf app.heap change now (app.view.maxId m) ps) = some mq)
      (twice : 2 ≤ ps.count p) (closes : ¬ change.Stays (app.order p)) : BulkEnded app a m change ids now .fault

/-- The order that is accepted for an id has this id in the market. -/
theorem Accepts.key (live : app.view.Live) (accepts : Accepts app a m change id p) :
    (app.order p).id = id ∧ (app.order p).marketId = m := by
  obtain ⟨-, key, -⟩ := live.booked a _ _ accepts.found
  exact ⟨(idKey_inj.mp key).2, (idKey_inj.mp key).1⟩

theorem changeByIds_spec (inv : app.Inv) (a : Symbol) (m : Int) (change : Change) (ids : List Int) (now : Int) :
    BulkEnded app a m change ids now (app.changeByIds a m change ids now) := by
  have staged := stageChanges_spec a m change now ids app (Response.empty.setMarket m)
  rw [changeByIds]
  cases staged with
  | inr thrown =>
    obtain ⟨e, es, app', staged, reported, missing⟩ := thrown
    rw [staged]
    exact .rejected missing (reported.release inv)
  | inl done =>
    obtain ⟨ps, app₁, resp, staged, accepted, reported, response⟩ := done
    obtain ⟨es, reports⟩ : ∃ es, es = reportsOf app.heap change now (app.view.maxId m) ps := ⟨_, rfl⟩
    have length : es.length = ps.length := by rw [reports, length_reportsOf]
    rw [← reports] at reported
    have execs : resp.execs = (List.range es.length).map (app.execs.fresh + ·) := by
      rw [response, length]
      exact List.nil_append _
    have journal : resp.execs.map app₁.exec = es := by
      rw [execs, show app₁.exec = app₁.execs.get from rfl, reported.execs]
      exact OrdMap.map_get_allocs _ _
    have mq₁ : app₁.mq = app.mq := congrArg View.mq reported.view
    rw [staged]
    simp only [journal, mq₁]
    cases posted : app.mq.createExecs es with
    | none =>
      refine .unjournaled accepted (reports ▸ posted) ?_
      rw [← length, execs]
      exact reported.release inv
    | some mq =>
      obtain ⟨app₂, journaled⟩ : ∃ app₂ : App, app₂ = { app₁ with mq } := ⟨_, rfl⟩
      have view₂ : app₂.view = { app.view with
          mq
          maxId := update app.view.maxId m (app.view.maxId m + ps.length)
          reports := app.view.reports.allocs es } := by
        rw [journaled, view_setMq, reported.view, ← length]
      have order₂ : ∀ p, app₂.order p = app.order p := fun p => by
        rw [journaled, App.order, App.order, ← reported.heap]
      have live₂ : app₂.view.Live := by rw [view₂]; exact inv.live
      have lookups : ∀ x ∈ pairs app.execs.fresh ps, Lookup app₂ a m change x := by
        intro x member
        obtain ⟨i, inside, rfl⟩ := List.mem_iff_getElem.mp member
        have small : i < ps.length := by
          rw [pairs, List.length_zip] at inside
          omega
        have pair : (pairs app.execs.fresh ps)[i] = (app.execs.fresh + i, ps[i]) := by
          simp only [pairs, List.getElem_zip, List.getElem_map, List.getElem_range]
        have smallIds : i < ids.length := by rw [accepted.length_eq]; exact small
        have accepts : Accepts app a m change ids[i] ps[i] := accepted.get smallIds small
        have orderId : (app₂.exec (app.execs.fresh + i)).orderId = (app.order ps[i]).id := by
          have smallEs : i < es.length := by rw [length]; exact small
          have exec : app₂.exec (app.execs.fresh + i) = es[i] := by
            simp only [journaled, App.exec, reported.execs]
            exact OrdMap.get_of_find (OrdMap.find_allocs_fresh _ _ (List.getElem?_eq_getElem smallEs))
          have orderIds := reportsOf_orderId app.heap change now (app.view.maxId m) ps
          rw [← reports] at orderIds
          have at_i : (es.map Exec.orderId)[i]? = (ps.map fun p => (app.heap.order p).id)[i]? := by rw [orderIds]
          simp only [List.getElem?_map, List.getElem?_eq_getElem smallEs, List.getElem?_eq_getElem small, Option.map_some,
            Option.some.injEq] at at_i
          rw [exec, at_i]
          rfl
        rw [pair]
        refine ⟨?_, ?_⟩
        · rw [orderId, (accepts.key inv.live).1, view₂]
          exact accepts.found
        · rw [order₂]
          exact Change.fits_of_check accepts.checked
      have es_fst : resp.execs = (pairs app.execs.fresh ps).map Prod.fst := by rw [pairs_fst, execs, length]
      simp only [← journaled, es_fst]
      by_cases repeats : ∀ p, 2 ≤ ps.count p → change.Stays (app.order p)
      · obtain ⟨app₃, committed, changes, execs₃, matches₃, pointers₃⟩ := commitChanges_spec live₂ now
          (pairs app.execs.fresh ps) lookups fun p twice => by
            rw [order₂]
            exact repeats p (by rwa [pairs_snd] at twice)
        rw [committed]
        refine .committed accepted (reports ▸ posted) repeats (reports ▸ view₂ ▸ changes) ?_ ?_ ?_ ?_
        · rw [matches₃, journaled]
          exact reported.matches_.trans inv.matches_
        · rw [pointers₃, journaled]
          exact reported.execs_.trans inv.execs_
        · rw [execs₃, journaled, ← reports]
          exact reported.execs
        · rw [response]
          rfl
      · obtain ⟨p, fails⟩ := not_forall.mp repeats
        obtain ⟨twice, closes⟩ := Classical.not_imp.mp fails
        rw [commitChanges_repeat live₂ _ lookups (by rwa [pairs_snd]) (by rw [order₂]; exact closes)]
        exact .fault accepted (reports ▸ posted) twice closes

end Swirly.App
