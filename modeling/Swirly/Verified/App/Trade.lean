import Swirly.Verified.App.Create

/-!
# Manual trades and archiving

What `create_trade` and the overloads of `archive_trade` come to.  They do not touch orders or books.
-/

namespace Swirly.App

open Function

variable {app app' : App} {a cpty : Symbol} {m now : Int} {ref : Bytes} {side : Side} {lots ticks created : Int}
  {liqInd : LiqInd}

/-- The trade that `create_trade` makes for the account. -/
def manualTrade (app : App) (a : Symbol) (m : Int) (ref : Bytes) (side : Side) (lots ticks : Int) (liqInd : LiqInd)
    (cpty : Symbol) (created : Int) : Exec :=
  .makeManual m (app.market m).instr (app.market m).settlDay (app.view.maxId m + 1) a ref side lots ticks
    (app.view.posn a m).netLots (app.view.posn a m).netCost liqInd cpty created

/-- How `create_trade` ends. -/
inductive Traded (app : App) (a : Symbol) (m : Int) (trade : Exec) (cpty : Symbol) :
    Outcome (ExecPtr × Option ExecPtr) → Prop
  | unjournaled {app' : App} {n : Nat} (restored : Restored app m (app.view.maxId m + n) app') :
      Traded app a m trade cpty (.throw .insufficientQueueCapacity app')
  | oneSided {app' : App} {mq : MsgQueue} (alone : cpty.isEmpty = true) (journal : app.mq.createExec trade = some mq)
      (view : app'.view = View.fileTrade { app.view with
        mq
        maxId := update app.view.maxId m (app.view.maxId m + 1)
        reports := app.view.reports.alloc trade.unstamped } a m app.execs.fresh)
      (matches_ : app'.matches_ = []) (execs_ : app'.execs_ = []) (execs : app'.execs = app.execs.alloc trade) :
      Traded app a m trade cpty (.ok (app.execs.fresh, none) app')
  | twoSided {app' : App} {mq : MsgQueue} (paired : cpty.isEmpty = false)
      (journal : app.mq.createExecs [trade, trade.opposite (app.view.maxId m + 2)] = some mq)
      (view : app'.view = (View.fileTrade { app.view with
        mq
        maxId := update app.view.maxId m (app.view.maxId m + 2)
        reports := app.view.reports.allocs [trade.unstamped, (trade.opposite (app.view.maxId m + 2)).unstamped] }
          cpty m (app.execs.fresh + 1)).fileTrade a m app.execs.fresh)
      (matches_ : app'.matches_ = []) (execs_ : app'.execs_ = [])
      (execs : app'.execs = app.execs.allocs [trade, trade.opposite (app.view.maxId m + 2)]) :
      Traded app a m trade cpty (.ok (app.execs.fresh, some (app.execs.fresh + 1)) app')

/-- The execs of a trade are made before the queue is asked. -/
theorem createTrade_eq {trade : Exec} {app₁ app₂ app₃ : App}
    (made : trade = Exec.makeManual m (app.market m).instr (app.market m).settlDay
      ((app.ensurePosn a m).allocId m).1 a ref side lots ticks ((app.ensurePosn a m).posn (a, m)).netLots
      ((app.ensurePosn a m).posn (a, m)).netCost liqInd cpty created)
    (first : app₁ = (((app.ensurePosn a m).allocId m).2.newExec trade).2)
    (second : app₂ = (app₁.ensureSess cpty).ensurePosn cpty m)
    (third : app₃ = ((app₂.allocId m).2.newExec (trade.opposite (app₂.allocId m).1)).2) :
    app.createTrade a m ref side lots ticks liqInd cpty created =
      if cpty.isEmpty then
        match app₁.mq.createExec trade with
        | none => .throw .insufficientQueueCapacity (app₁.releaseExecs [app.execs.fresh])
        | some mq => .ok (app.execs.fresh, none) ({ app₁ with mq }.fileTrade a m app.execs.fresh)
      else
        match app₃.mq.createExecs [trade, trade.opposite (app₂.allocId m).1] with
        | none => .throw .insufficientQueueCapacity (app₃.releaseExecs [app.execs.fresh, app₂.execs.fresh])
        | some mq =>
          .ok (app.execs.fresh, some app₂.execs.fresh)
            (({ app₃ with mq }.fileTrade cpty m app₂.execs.fresh).fileTrade a m app.execs.fresh) := by
  rw [third, second, first, made]
  rfl

theorem createTrade_spec (inv : app.Inv) (a : Symbol) (m : Int) (ref : Bytes) (side : Side) (lots ticks : Int)
    (liqInd : LiqInd) (cpty : Symbol) (created : Int) :
    Traded app a m (app.manualTrade a m ref side lots ticks liqInd cpty created) cpty
      (app.createTrade a m ref side lots ticks liqInd cpty created) := by
  obtain ⟨trade, made⟩ : ∃ trade, trade = Exec.makeManual m (app.market m).instr (app.market m).settlDay
      ((app.ensurePosn a m).allocId m).1 a ref side lots ticks ((app.ensurePosn a m).posn (a, m)).netLots
      ((app.ensurePosn a m).posn (a, m)).netCost liqInd cpty created := ⟨_, rfl⟩
  obtain ⟨app₁, first⟩ : ∃ app₁, app₁ = (((app.ensurePosn a m).allocId m).2.newExec trade).2 := ⟨_, rfl⟩
  obtain ⟨app₂, second⟩ : ∃ app₂, app₂ = (app₁.ensureSess cpty).ensurePosn cpty m := ⟨_, rfl⟩
  obtain ⟨app₃, third⟩ : ∃ app₃, app₃ = ((app₂.allocId m).2.newExec (trade.opposite (app₂.allocId m).1)).2 := ⟨_, rfl⟩
  have posn : (app.ensurePosn a m).posn (a, m) = app.view.posn a m :=
    congrFun (congrFun (congrArg View.posn (view_ensurePosn a m)) a) m
  have trade_eq : app.manualTrade a m ref side lots ticks liqInd cpty created = trade := by
    rw [made, posn]
    rfl
  have view₁ : app₁.view = (app.view.allocId m).newExec trade := by
    rw [first, view_newExec, view_allocId, view_ensurePosn]
  have execs₁ : app₁.execs = app.execs.alloc trade := by
    rw [first]
    rfl
  have view₂ : app₂.view = app₁.view := by rw [second, view_ensurePosn, view_ensureSess]
  have execs₂ : app₂.execs = app₁.execs := by
    rw [second]
    rfl
  have fresh₂ : app₂.execs.fresh = app.execs.fresh + 1 := by rw [execs₂, execs₁, OrdMap.fresh_alloc]
  have id₂ : (app₂.allocId m).1 = app.view.maxId m + 2 := by
    have maxId : app₂.view.maxId m = app.view.maxId m + 1 := by
      rw [view₂, view₁]
      exact update_self _ _ _
    show app₂.view.maxId m + 1 = _
    omega
  have view₃ : app₃.view = { app.view with
      maxId := update app.view.maxId m (app.view.maxId m + 2)
      reports := app.view.reports.allocs [trade.unstamped, (trade.opposite (app.view.maxId m + 2)).unstamped] } := by
    rw [third, view_newExec, view_allocId, id₂, view₂, view₁]
    simp only [View.newExec, View.allocId, update_self, update_idem, OrdMap.allocs_cons, OrdMap.allocs_nil, add_assoc]
    rfl
  have execs₃ : app₃.execs = app.execs.allocs [trade, trade.opposite (app.view.maxId m + 2)] := by
    rw [third, ← id₂]
    show app₂.execs.alloc _ = _
    rw [execs₂, execs₁]
    rfl
  have scratch₁ : app₁.matches_ = [] ∧ app₁.execs_ = [] := by
    rw [first]
    exact ⟨inv.matches_, inv.execs_⟩
  have scratch₃ : app₃.matches_ = [] ∧ app₃.execs_ = [] := by
    rw [third, second]
    exact scratch₁
  rw [trade_eq, createTrade_eq made first second third]
  cases alone : cpty.isEmpty with
  | true =>
    rw [if_pos rfl, show app₁.mq = app.mq from congrArg View.mq view₁]
    cases posted : app.mq.createExec trade with
    | none =>
      exact .unjournaled (n := 1) (.release [trade] view₁ execs₁ scratch₁.1 scratch₁.2)
    | some mq =>
      refine .oneSided alone posted ?_ scratch₁.1 scratch₁.2 execs₁
      rw [view_fileTrade, view_setMq, view₁]
      rfl
  | false =>
    rw [if_neg (by simp), show app₃.mq = app.mq from congrArg View.mq view₃, id₂, fresh₂]
    cases posted : app.mq.createExecs [trade, trade.opposite (app.view.maxId m + 2)] with
    | none =>
      exact .unjournaled (n := 2) (.release _ view₃ execs₃ scratch₃.1 scratch₃.2)
    | some mq =>
      refine .twoSided alone posted ?_ scratch₃.1 scratch₃.2 execs₃
      rw [view_fileTrade, view_fileTrade, view_setMq, view₃]

/-! ## Archiving -/

/-- The trades with the ids leave the index of the account. -/
def archive (v : View) (a : Symbol) (m : Int) (ids : List Int) : View :=
  { v with trades := update v.trades a (ids.foldl (fun trades id => trades.erase (idKey m id)) (v.trades a)) }

theorem find_archive (v : View) (a b : Symbol) (m : Int) (ids : List Int) (k : IdKey) :
    ((archive v a m ids).trades b).find k = if b = a ∧ k ∈ ids.map (idKey m) then none else (v.trades b).find k := by
  have erased : ∀ trades : OrdMap IdKey ExecPtr, (ids.foldl (fun trades id => trades.erase (idKey m id)) trades).find k =
      if k ∈ ids.map (idKey m) then none else trades.find k := by
    induction ids with
    | nil => exact fun _ => rfl
    | cons id ids inductionHypothesis =>
      intro trades
      rw [List.foldl_cons, inductionHypothesis, List.map_cons, OrdMap.find_erase]
      by_cases here : k = idKey m id
      · simp [here]
      · simp [here]
  rw [archive]
  simp only [update_apply]
  split
  next here => rw [erased, here]; simp
  next differ => simp [differ]

/-- How the calls that archive trades end; `m` and `ids` are those that are journaled. -/
inductive Archived (app : App) (a : Symbol) (m : Int) (ids : List Int) : Outcome Unit → Prop
  | rejected {e : Exception} : Archived app a m ids (.throw e app)
  | committed {app' : App} {modified : Int} {mq : MsgQueue}
      (journal : app.mq.archiveTrades m ids modified = some mq ∨
        ∃ id, ids = [id] ∧ app.mq.archiveTrade m id modified = some mq)
      (view : app'.view = archive { app.view with mq } a m ids)
      (execs : app'.execs = app.execs)
      (matches_ : app'.matches_ = app.matches_) (execs_ : app'.execs_ = app.execs_) :
      Archived app a m ids (.ok () app')

theorem doArchiveTrade_spec (app : App) (a : Symbol) (m id now : Int) :
    Archived app a m [id] (app.doArchiveTrade a m id now) := by
  rw [doArchiveTrade]
  cases journal : app.mq.archiveTrade m id now with
  | none => exact .rejected
  | some mq =>
    refine .committed (.inr ⟨id, rfl, journal⟩) ?_ rfl rfl rfl
    rw [view_removeTrade]
    rfl

theorem removeTrades_spec (app : App) (a : Symbol) (m : Int) (ids : List Int)
    (found : ∀ id ∈ ids, ((app.view.trades a).find (idKey m id)).isSome) (nodup : ids.Nodup) :
    ∃ app', removeTrades a m ids app = some app' ∧ app'.view = archive app.view a m ids ∧ app'.execs = app.execs ∧
      app'.matches_ = app.matches_ ∧ app'.execs_ = app.execs_ := by
  induction ids generalizing app with
  | nil =>
    refine ⟨app, rfl, ?_, rfl, rfl, rfl⟩
    rw [archive, List.foldl_nil, update_eq_self]
  | cons id ids inductionHypothesis =>
    obtain ⟨differ, nodup⟩ := List.nodup_cons.mp nodup
    obtain ⟨e, present⟩ := Option.isSome_iff_exists.mp (found id List.mem_cons_self)
    have view₁ : (app.removeTrade a (idKey m id)).view = app.view.removeTrade a (idKey m id) := view_removeTrade _ _
    obtain ⟨app', rest, view', execs', matches', pointers'⟩ :=
      inductionHypothesis (app.removeTrade a (idKey m id)) (fun i member => by
        have other : idKey m i ≠ idKey m id := fun same => differ ((idKey_inj.mp same).2 ▸ member)
        rw [view₁, View.removeTrade]
        simp only [update_self]
        rw [OrdMap.find_erase_ne _ other]
        exact found i (List.mem_cons_of_mem _ member)) nodup
    refine ⟨app', ?_, ?_, execs', matches', pointers'⟩
    · rw [removeTrades, show (app.sess a).trades.find (idKey m id) = _ from present]
      exact rest
    · rw [view', view₁, archive, archive, View.removeTrade]
      simp only [update_self, update_idem, List.foldl_cons]

/-- A trade is not found a second time. -/
theorem removeTrades_none (app : App) (a : Symbol) (m : Int) (ids : List Int)
    (missing : (∃ id ∈ ids, (app.view.trades a).find (idKey m id) = none) ∨ ¬ ids.Nodup) :
    removeTrades a m ids app = none := by
  induction ids generalizing app with
  | nil => simp at missing
  | cons id ids inductionHypothesis =>
    rw [removeTrades]
    cases present : (app.sess a).trades.find (idKey m id) with
    | none => rfl
    | some e =>
      have view₁ : (app.removeTrade a (idKey m id)).view = app.view.removeTrade a (idKey m id) := view_removeTrade _ _
      have found₁ : ∀ i, ((app.removeTrade a (idKey m id)).view.trades a).find (idKey m i) =
          if i = id then none else (app.view.trades a).find (idKey m i) := fun i => by
        rw [view₁, View.removeTrade]
        simp only [update_self, OrdMap.find_erase, idKey_inj, true_and]
      refine inductionHypothesis (app.removeTrade a (idKey m id)) ?_
      by_cases again : id ∈ ids
      · exact .inl ⟨id, again, by rw [found₁, if_pos rfl]⟩
      · cases missing with
        | inr repeats => exact .inr fun nodup => repeats (List.nodup_cons.mpr ⟨again, nodup⟩)
        | inl absent =>
          obtain ⟨i, member, none_found⟩ := absent
          cases List.mem_cons.mp member with
          | inl here =>
            rw [here, show (app.view.trades a).find (idKey m id) = _ from present] at none_found
            cases none_found
          | inr later =>
            refine .inl ⟨i, later, ?_⟩
            rw [found₁, none_found, ite_self]

/-- How `archive_trade` by a list of ids ends. -/
inductive BulkArchived (app : App) (a : Symbol) (m : Int) (ids : List Int) (now : Int) : Outcome Unit → Prop
  | rejected {e : Exception} (missing : ∃ id ∈ ids, (app.view.trades a).find (idKey m id) = none) :
      BulkArchived app a m ids now (.throw e app)
  | unjournaled (found : ∀ id ∈ ids, ((app.view.trades a).find (idKey m id)).isSome)
      (full : app.mq.archiveTrades m ids now = none) :
      BulkArchived app a m ids now (.throw .insufficientQueueCapacity app)
  | committed {app' : App} {mq : MsgQueue} (found : ∀ id ∈ ids, ((app.view.trades a).find (idKey m id)).isSome)
      (journal : app.mq.archiveTrades m ids now = some mq) (nodup : ids.Nodup)
      (view : app'.view = archive { app.view with mq } a m ids) (execs : app'.execs = app.execs)
      (matches_ : app'.matches_ = app.matches_) (execs_ : app'.execs_ = app.execs_) :
      BulkArchived app a m ids now (.ok () app')
  | fault {mq : MsgQueue} (found : ∀ id ∈ ids, ((app.view.trades a).find (idKey m id)).isSome)
      (journal : app.mq.archiveTrades m ids now = some mq) (repeats : ¬ ids.Nodup) : BulkArchived app a m ids now .fault

theorem archiveTrades_spec (app : App) (a : Symbol) (m : Int) (ids : List Int) (now : Int) :
    BulkArchived app a m ids now (app.archiveTrades a m ids now) := by
  rw [archiveTrades]
  cases missing : ids.find? fun id => ((app.sess a).trades.find (idKey m id)).isNone with
  | some id =>
    have absent := List.find?_some missing
    exact .rejected ⟨id, List.mem_of_find?_eq_some missing, Option.isNone_iff_eq_none.mp absent⟩
  | none =>
    have found : ∀ id ∈ ids, ((app.view.trades a).find (idKey m id)).isSome := fun id member => by
      have notNone := List.find?_eq_none.mp missing id member
      rw [Bool.not_eq_true, Option.isNone_eq_false_iff] at notNone
      exact notNone
    simp only
    cases journal : app.mq.archiveTrades m ids now with
    | none => exact .unjournaled found journal
    | some mq =>
      by_cases nodup : ids.Nodup
      · obtain ⟨app', removed, view, execs, matches_, execs_⟩ :=
          removeTrades_spec { app with mq } a m ids found nodup
        simp only [removed]
        exact .committed found journal nodup view execs matches_ execs_
      · simp only [removeTrades_none { app with mq } a m ids (.inr nodup)]
        exact .fault found journal nodup

end Swirly.App
