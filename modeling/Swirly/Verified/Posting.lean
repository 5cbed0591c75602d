import Swirly.Verified.MarketIds
import Swirly.Verified.App.Trades

/-!
# What a step posts

`Posting` says what the messages of a step are: none, one about a market, the reports of one market under its next ids, or
blocks of archived trades.
-/

namespace Swirly

open Function

/-- The open and the executed lots of a report make up its lots, unless nothing is open. -/
def Exec.Balanced (x : Exec) : Prop := x.resdLots ≠ 0 → x.resdLots + x.execLots = x.lots

/-- Blocks of ids, each with its padding. -/
def archiveMsgs (m modified : Int) (blocks : List (List Int)) : List Msg :=
  blocks.map fun ids => .archiveTrade m (MsgQueue.padIds ids) (msSinceEpoch modified)

namespace MsgQueue

variable {mq mq' : MsgQueue} {m modified : Int} {ids : List Int}

/-- The messages have been posted. -/
def Posts (mq : MsgQueue) (msgs : List Msg) (mq' : MsgQueue) : Prop := mq' = { mq with posted := mq.posted ++ msgs }

theorem Posts.posted {msgs : List Msg} (posts : mq.Posts msgs mq') : mq'.posted = mq.posted ++ msgs :=
  congrArg MsgQueue.posted posts

theorem Posts.nil (mq : MsgQueue) : mq.Posts [] mq := by rw [Posts, List.append_nil]

@[simp] theorem posted_pop (mq : MsgQueue) : mq.pop.posted = mq.posted := by
  rw [pop]
  split <;> rfl

theorem posts_doArchiveTrade (posted : mq.doArchiveTrade m ids modified = some mq') :
    mq.Posts (archiveMsgs m modified [ids]) mq' := post_eq posted

/-- The blocks of a list are the list. -/
theorem posts_archiveChunks {more : Nat} (enough : ids.length ≤ maxIds * (more + 1))
    (posted : archiveChunks m modified more ids mq = some mq') :
    ∃ blocks, blocks.flatten = ids ∧ mq.Posts (archiveMsgs m modified blocks) mq' := by
  induction more generalizing ids mq with
  | zero =>
    have whole : ids.take maxIds = ids := List.take_of_length_le (by omega)
    rw [archiveChunks, whole] at posted
    exact ⟨[ids], List.flatten_singleton, posts_doArchiveTrade posted⟩
  | succ more inductionHypothesis =>
    rw [archiveChunks] at posted
    obtain ⟨next, first, rest⟩ := Option.bind_eq_some_iff.mp posted
    have short : (ids.drop maxIds).length ≤ maxIds * (more + 1) := by
      rw [List.length_drop]
      rw [Nat.mul_add] at enough
      omega
    obtain ⟨blocks, flat, later⟩ := inductionHypothesis short rest
    refine ⟨ids.take maxIds :: blocks, ?_, ?_⟩
    · rw [List.flatten_cons, flat, List.take_append_drop]
    · have before : next = _ := posts_doArchiveTrade first
      rw [Posts, later, before, List.append_assoc]
      rfl

theorem posts_archiveTrades (posted : mq.archiveTrades m ids modified = some mq') :
    ∃ blocks, blocks.flatten = ids ∧ mq.Posts (archiveMsgs m modified blocks) mq' := by
  unfold archiveTrades at posted
  split at posted
  next => cases posted
  next =>
    refine posts_archiveChunks ?_ posted
    simp only [steps, maxIds]
    omega

end MsgQueue

/-- A call by reference names an order of its market. -/
def Op.InMarket (app : App) : Op → Prop
  | changeOrder a m _ (.ref ref) _ => ∀ p ∈ (app.sess a).refIdx.find ref, (app.order p).marketId = m
  | _ => True

instance (app : App) (op : Op) : Decidable (op.InMarket app) :=
  match op with
  | .changeOrder a m _ (.ref ref) _ =>
    inferInstanceAs (Decidable (∀ p ∈ (app.sess a).refIdx.find ref, (app.order p).marketId = m))
  | .sess .. | .createMarket .. | .updateMarket .. | .createOrder .. | .changeOrder _ _ _ (.id _) _
  | .changeOrder _ _ _ (.ids _) _ | .createTrade .. | .archiveExec .. | .archiveTrade .. | .archiveTrades .. | .pop =>
    .isTrue trivial

namespace App

variable {app app' app₀ : App} {op : Op} {a : Symbol} {m now : Int} {o : Order} {change : Change} {news : List Exec}

/-- The reports of one market, under its next ids. -/
structure Allots (app : App) (m : Int) (news : List Exec) (app' : App) : Prop where
  known : (app.listing m).isSome
  journaled : app.mq.Journaled news app'.mq
  maxId : app'.view.maxId = update app.view.maxId m (app.view.maxId m + news.length)
  ids : Consecutive (app.view.maxId m + 1) news
  market : ∀ x ∈ news, x.marketId = m
  balanced : ∀ x ∈ news, x.Balanced
  /-- A report of a new order carries the id of the order, and no report of another kind has none. -/
  orderId : ∀ x ∈ news, x.state = .new → x.orderId = x.id

/-- What a step posts. -/
inductive Posting (app : App) (op : Op) (app' : App) : Prop
  | same (mq : app'.mq = app.mq) (grown : ∀ n, app.view.maxId n ≤ app'.view.maxId n)
  | opened {n : Int} {instr : Bytes} {settlDay : Int} {state : Nat} (unlisted : app.listing n = none)
      (listed : (app'.listing n).isSome) (posts : app.mq.Posts [.createMarket n instr settlDay state] app'.mq)
      (grown : ∀ n, app.view.maxId n ≤ app'.view.maxId n)
  | updated {n : Int} {state : Nat} (posts : app.mq.Posts [.updateMarket n state] app'.mq)
      (grown : ∀ n, app.view.maxId n ≤ app'.view.maxId n)
  | allotted {n : Int} {news : List Exec} (allots : Allots app n news app')
  | archived {a : Symbol} {n modified : Int} {blocks : List (List Int)}
      (posts : app.mq.Posts (archiveMsgs n modified blocks) app'.mq)
      (owner : ∀ id ∈ blocks.flatten,
        (∃ k e, (app.view.trades a).find k = some e ∧ (k = idKey n id ∨ (app.exec e).key = idKey n id)) ∨
        ∃ e now, op = .archiveExec a e now ∧ (app.exec e).key = idKey n id)
      (nodup : blocks.flatten.Nodup) (grown : ∀ n, app.view.maxId n ≤ app'.view.maxId n)
  | popped (pops : op = .pop) (mq : app'.mq = app.mq.pop) (grown : ∀ n, app.view.maxId n ≤ app'.view.maxId n)

theorem Posting.of_view (same : app'.view = app.view) : Posting app op app' :=
  .same (congrArg View.mq same) fun n => by rw [same]

theorem Restored.posting {given : Int} (restored : Restored app m given app') (grown : app.view.maxId m ≤ given) :
    Posting app op app' :=
  .same (congrArg View.mq restored.view) fun n => by
    rw [restored.view]
    exact grown_update grown n

/-! ## The reports of an order -/

theorem balanced_tradeSum {x : Exec} (balance : x.resdLots + x.execLots = x.lots) (sumLots sumCost lastLots lastTicks matchId : Int)
    (liqInd : LiqInd) (cpty : Symbol) : (x.tradeSum sumLots sumCost lastLots lastTicks matchId liqInd cpty).Balanced := by
  intro _
  show x.resdLots - sumLots + (x.execLots + sumLots) = x.lots
  omega

theorem Change.balanced_report (change : Change) {x : Exec} (balance : x.resdLots + x.execLots = x.lots) :
    (change.report x).Balanced := by
  cases change with
  | revise lots =>
    intro _
    show x.resdLots - (x.lots - lots) + x.execLots = lots
    omega
  | cancel => exact fun open_ => absurd rfl open_

theorem mem_reportsOf {h : Heap} {id : Int} {ps : List OrderPtr} {x : Exec} (member : x ∈ reportsOf h change now id ps) :
    ∃ p ∈ ps, ∃ id, x = change.report (.make (h.order p) id now) := by
  induction ps generalizing id with
  | nil => cases member
  | cons p ps inductionHypothesis =>
    cases List.mem_cons.mp member with
    | inl first => exact ⟨p, List.mem_cons_self, _, first⟩
    | inr later =>
      obtain ⟨q, inside, made⟩ := inductionHypothesis later
      exact ⟨q, List.mem_cons_of_mem _ inside, made⟩

theorem Change.marketId_report (change : Change) (x : Exec) :
    (change.report x).marketId = x.marketId ∧ (change.report x).state ≠ .new := by
  cases change with
  | revise | cancel => exact ⟨rfl, nofun⟩

/-- The orders that a call names are in its market. -/
theorem Names.market {target : Target} {ps : List OrderPtr} (inv : app.Inv)
    (inMarket : (Op.changeOrder a m change target now).InMarket app) (names : app.Names a m change target ps) :
    ∀ p ∈ ps, (app.order p).marketId = m := by
  cases target with
  | id id =>
    obtain ⟨p, rfl, found⟩ := names
    intro q member
    rw [List.mem_singleton.mp member]
    obtain ⟨-, key, -⟩ := inv.live.booked a _ p found
    exact (idKey_inj.mp key).1
  | ref ref =>
    obtain ⟨p, rfl, found⟩ := names
    intro q member
    rw [List.mem_singleton.mp member]
    exact inMarket p found
  | ids ids =>
    intro p member
    obtain ⟨i, small, rfl⟩ := List.mem_iff_getElem.mp member
    have accepted : List.Forall₂ (Accepts app a m change) ids ps := names
    exact ((accepted.get (by rw [accepted.length_eq]; exact small) small).key inv.live).2

theorem ChangeDone.allots {ps : List OrderPtr} {resp : Response} {mq : MsgQueue} (inv : app.Inv)
    (known : (app.listing m).isSome) (done : app.ChangeDone a m change ps now resp mq app')
    (market : ∀ p ∈ ps, (app.order p).marketId = m) :
    Allots app m (reportsOf app.heap change now (app.view.maxId m) ps) app' where
  known := known
  journaled := by
    rw [show app'.mq = mq from done.changes.mq]
    exact done.journaled
  maxId := by rw [done.changes.maxId, length_reportsOf]
  ids := consecutive_reportsOf _ _ _ _ _
  market x member := by
    obtain ⟨p, inside, id, rfl⟩ := mem_reportsOf member
    rw [(change.marketId_report _).1]
    exact market p inside
  balanced x member := by
    obtain ⟨p, inside, id, rfl⟩ := mem_reportsOf member
    exact change.balanced_report (inv.live.balance _ _ p (done.held p inside).1.member)
  orderId x member new := by
    obtain ⟨p, inside, id, rfl⟩ := mem_reportsOf member
    exact absurd new (change.marketId_report _).2

theorem Opened.allots {side : Side} {v : View} (inv : app.Inv) (known : (app.listing m).isSome) (new : New app a m o)
    (state : o.state = .new)
    (opened : Opened app a m o now (app.incomingFills m o) v)
    (commits : Commits a m side now ((app.incomingFills m o).map fun f => f.toMatch app.heap m) v app'.view) :
    Allots app m (newReports app o now (app.incomingFills m o)) app' := by
  have numbered : Numbered app app' (newReports app o now (app.incomingFills m o)) m :=
    created_numbered inv new state (by rw [commits.maxId, opened.view])
  have kinds : ∀ x ∈ newReports app o now (app.incomingFills m o), x = Exec.make o o.id now ∨
      ∃ f ∈ app.incomingFills m o, x = f.makerExec app.heap o now ∨ x = f.takerExec app.heap o now := by
    intro x member
    cases List.mem_cons.mp member with
    | inl first => exact .inl first
    | inr later =>
      obtain ⟨f, inside, made⟩ := List.mem_flatMap.mp later
      exact .inr ⟨f, inside, List.mem_pair.mp made⟩
  exact
    { known
      journaled := by
        rw [show app'.mq = v.mq from commits.mq]
        exact .of_createExecs opened.journal
      maxId := numbered.maxId
      ids := numbered.ids
      market := fun x member => by
        cases kinds x member with
        | inl first => rw [first]; exact new.marketId
        | inr later =>
          obtain ⟨f, inside, made⟩ := later
          cases made with
          | inl maker => rw [maker]; exact (inv.live.home (mem_fillsOf inside).1).1
          | inr taker => rw [taker]; exact new.marketId
      balanced := fun x member => by
        cases kinds x member with
        | inl first => rw [first]; exact fun _ => new.balance
        | inr later =>
          obtain ⟨f, inside, made⟩ := later
          cases made with
          | inl maker =>
            rw [maker]
            exact balanced_tradeSum (inv.live.balance _ _ _ (mem_fillsOf inside).1) _ _ _ _ _ _ _
          | inr taker =>
            rw [taker]
            exact balanced_tradeSum new.balance _ _ _ _ _ _ _
      orderId := fun x member isNew => by
        cases kinds x member with
        | inl first => rw [first]; rfl
        | inr later =>
          obtain ⟨f, inside, made⟩ := later
          cases made with
          | inl maker => rw [maker] at isNew; cases isNew
          | inr taker => rw [taker] at isNew; cases isNew }

theorem Traded.posting {trade : Exec} {cpty : Symbol} {outcome : Outcome (ExecPtr × Option ExecPtr)}
    (known : (app.listing m).isSome) (traded : Traded app a m trade cpty outcome) (ends : outcome.state = some app')
    (accnt : trade.accnt = a) (marketId : trade.marketId = m) (state : trade.state = .trade) (named : trade.cpty = cpty)
    (first : trade.id = app.view.maxId m + 1) (closed : trade.resdLots = 0) : Posting app op app' := by
  have allots : ∀ news es, Filed app app' news es → Numbered app app' news m →
      (∀ x ∈ news, x.state = .trade ∧ x.resdLots = 0) → Posting app op app' := by
    intro news es filed numbered trades
    exact .allotted
      { known
        journaled := filed.journaled
        maxId := numbered.maxId
        ids := numbered.ids
        market := fun x member => numbered.market x member (trades x member).1
        balanced := fun x member open_ => absurd (trades x member).2 open_
        orderId := fun x member new => absurd (new.symm.trans (trades x member).1) nofun }
  cases outcome with
  | fault => cases ends
  | throw e next =>
    cases ends
    cases traded with
    | unjournaled restored => exact restored.posting (by omega)
  | ok trades next =>
    cases ends
    cases traded.filed accnt marketId state named first with
    | inl alone =>
      obtain ⟨-, filed, -, numbered⟩ := alone
      refine allots _ _ filed numbered fun x member => ?_
      rw [List.mem_singleton.mp member]
      exact ⟨state, closed⟩
    | inr paired =>
      obtain ⟨-, -, filed, -, numbered⟩ := paired
      refine allots _ _ filed numbered fun x member => ?_
      cases List.mem_pair.mp member with
      | inl one => rw [one]; exact ⟨state, closed⟩
      | inr other => rw [other]; exact ⟨state, closed⟩

theorem Archived.posting {id : Int} {outcome : Outcome Unit} (archived : Archived app a m [id] outcome)
    (ends : outcome.state = some app')
    (owner : (∃ k e, (app.view.trades a).find k = some e ∧ (k = idKey m id ∨ (app.exec e).key = idKey m id)) ∨
      ∃ e now, op = .archiveExec a e now ∧ (app.exec e).key = idKey m id) :
    Posting app op app' := by
  cases archived with
  | rejected =>
    cases ends
    exact .of_view rfl
  | @committed _ modified mq journal view execs matches_ execs_ =>
    cases ends
    have posted : ∃ blocks, blocks.flatten = [id] ∧ app.mq.Posts (archiveMsgs m modified blocks) mq := by
      cases journal with
      | inl bulk => exact MsgQueue.posts_archiveTrades bulk
      | inr single =>
        obtain ⟨i, same, single⟩ := single
        obtain rfl : id = i := by simpa using same
        exact ⟨[[id]], rfl, MsgQueue.posts_doArchiveTrade single⟩
    obtain ⟨blocks, flat, posted⟩ := posted
    rw [show mq = app'.mq from (congrArg View.mq view).symm] at posted
    have owners : ∀ i ∈ blocks.flatten,
        (∃ k e, (app.view.trades a).find k = some e ∧ (k = idKey m i ∨ (app.exec e).key = idKey m i)) ∨
        ∃ e now, op = .archiveExec a e now ∧ (app.exec e).key = idKey m i := by
      intro i member
      rw [flat] at member
      rw [List.mem_singleton.mp member]
      exact owner
    exact .archived posted owners (by rw [flat]; exact List.nodup_singleton id) fun n => by rw [view]; rfl

theorem BulkArchived.posting {ids : List Int} {outcome : Outcome Unit} (archived : BulkArchived app a m ids now outcome)
    (ends : outcome.state = some app') : Posting app op app' := by
  cases archived with
  | rejected missing =>
    cases ends
    exact .of_view rfl
  | unjournaled found full =>
    cases ends
    exact .of_view rfl
  | @committed _ mq found journal nodup view execs matches_ execs_ =>
    cases ends
    obtain ⟨blocks, flat, posted⟩ := MsgQueue.posts_archiveTrades journal
    rw [show mq = app'.mq from (congrArg View.mq view).symm] at posted
    refine .archived (a := a) posted (fun id member => .inl ?_) (flat.symm ▸ nodup) fun n => by rw [view]; rfl
    obtain ⟨e, present⟩ := Option.isSome_iff_exists.mp (found id (flat ▸ member))
    exact ⟨_, e, present, .inl rfl⟩
  | fault => cases ends

/-! ## Steps -/

/-- A call first makes its session. -/
theorem Posting.of_ensureSess (posting : Posting (app.ensureSess a) op app') : Posting app op app' := by
  have view : (app.ensureSess a).view = app.view := view_ensureSess a
  cases posting with
  | same posted grown => exact .same posted (by rw [view] at grown; exact grown)
  | opened unlisted listed posted grown => exact .opened unlisted listed posted (by rw [view] at grown; exact grown)
  | updated posted grown => exact .updated posted (by rw [view] at grown; exact grown)
  | allotted allots =>
    obtain ⟨known, journaled, maxId, ids, market, balanced, orderId⟩ := allots
    rw [view] at maxId ids
    exact .allotted ⟨known, journaled, maxId, ids, market, balanced, orderId⟩
  | archived posted owner nodup grown =>
    rw [view] at owner grown
    exact .archived posted owner nodup grown
  | popped pops mq grown => exact .popped pops mq (by rw [view] at grown; exact grown)

theorem withMarket_posting {α : Type} {f : Outcome α} (ends : (app.withMarket m f).state = some app')
    (posting : (app.listing m).isSome → f.state = some app' → Posting app op app') : Posting app op app' := by
  unfold withMarket at ends
  split at ends
  next known => exact posting (by rw [listing, Option.isSome_map]; exact known) ends
  next =>
    cases ends
    exact .of_view rfl

/-- A change that throws posts nothing. -/
theorem changeTarget_thrown {target : Target} {e : Exception} (inv : app.Inv)
    (thrown : app.changeTarget a m change now target = .throw e app') : Posting app op app' := by
  have one : ∀ {p : OrderPtr}, app.Held a p → app.changeOrder a m change p now = .throw e app' → Posting app op app' := by
    intro p held thrown
    have ended := changeOrder_spec inv held m change now
    rw [thrown] at ended
    cases ended with
    | rejected checked => exact .of_view rfl
    | unjournaled checked full restored => exact restored.posting (by omega)
  cases target with
  | id id =>
    simp only [changeTarget, changeById] at thrown
    split at thrown
    next => cases thrown; exact .of_view rfl
    next p found =>
      obtain ⟨accnt, -, listed⟩ := inv.live.booked a _ p found
      exact one ⟨accnt, listed⟩ thrown
  | ref ref =>
    simp only [changeTarget, changeByRef] at thrown
    split at thrown
    next => cases thrown; exact .of_view rfl
    next p found =>
      obtain ⟨-, -, accnt, listed⟩ := inv.live.refs a _ p found
      exact one ⟨accnt, listed⟩ thrown
  | ids ids =>
    have ended := changeByIds_spec inv a m change ids now
    rw [show app.changeByIds a m change ids now = _ from thrown] at ended
    cases ended with
    | rejected missing restored => exact restored.posting (by omega)
    | unjournaled accepted full restored => exact restored.posting (by omega)

theorem changeTarget_posting {target : Target} (inv : app.Inv) (known : (app.listing m).isSome)
    (inMarket : (Op.changeOrder a m change target now).InMarket app)
    (ends : (app.changeTarget a m change now target).state = some app') :
    Posting app (.changeOrder a m change target now) app' := by
  cases outcome : app.changeTarget a m change now target with
  | ok resp next =>
    rw [outcome] at ends
    cases ends
    obtain ⟨ps, mq, done, names⟩ := changeTarget_done inv outcome
    exact .allotted (done.allots inv known (names.market inv inMarket))
  | throw e next =>
    rw [outcome] at ends
    cases ends
    exact changeTarget_thrown inv outcome
  | fault =>
    rw [outcome] at ends
    cases ends

theorem InMarket.ensureSess (inMarket : op.InMarket app) (a : Symbol) : op.InMarket (app.ensureSess a) := by
  cases op with
  | changeOrder b m change target now =>
    cases target with
    | ref ref =>
      intro p found
      rw [sess_ensureSess] at found
      exact inMarket p found
    | id | ids => trivial
  | sess | createMarket | updateMarket | createOrder | createTrade | archiveExec | archiveTrade | archiveTrades | pop => trivial

theorem step_posting (inv : app.Inv) (inMarket : op.InMarket app) (stepped : app.step op = some app') :
    Posting app op app' := by
  cases op with
  | sess a =>
    cases stepped
    exact .of_view (view_ensureSess a)
  | createMarket i instr d state busDay =>
    simp only [App.step, call, Outcome.state_map, createMarket] at stepped
    split at stepped
    next => cases stepped; exact .of_view rfl
    next =>
      split at stepped
      next => cases stepped; exact .of_view rfl
      next absent =>
        split at stepped
        next => cases stepped; exact .of_view rfl
        next mq journal =>
          cases stepped
          have absent : app.markets.find (toMarketId i d) = none := by simpa using absent
          have none_ : ({ app with mq } : App).markets.find (toMarketId i d) = none := absent
          have view : (({ app with mq } : App).setMarket (toMarketId i d) (.make instr d state)).view = _ :=
            view_newMarket none_ instr d state
          refine .opened (n := toMarketId i d) (by rw [listing, absent]; rfl) ?_ (MsgQueue.post_eq journal)
            fun n => by rw [view]; rfl
          simp [listing, setMarket]
  | updateMarket m state =>
    refine withMarket_posting stepped fun known ends => ?_
    simp only [Outcome.state_map, updateMarket] at ends
    split at ends
    next => cases ends; exact .of_view rfl
    next mq journal =>
      cases ends
      have view : (({ app with mq } : App).setMarket m { ({ app with mq } : App).market m with state }).view = _ :=
        view_setTerms state
      exact .updated (MsgQueue.post_eq journal) fun n =>
        (congrFun (congrArg View.maxId view) n).symm.le
  | createOrder a m ref side lots ticks minLots now busDay =>
    refine .of_ensureSess (a := a) (withMarket_posting stepped fun known ends => ?_)
    rw [Outcome.state_map] at ends
    have created := createOrder_spec (inv.ensureSess a) a m ref side lots ticks minLots now busDay
    generalize (app.ensureSess a).createOrder a m ref side lots ticks minLots now busDay = outcome at created ends
    cases created with
    | rejected checked =>
      cases ends
      exact .of_view rfl
    | unjournaled checked full restored =>
      cases ends
      exact restored.posting (by omega)
    | committed checked opened commits matches_ execs_ ledger response =>
      cases ends
      exact .allotted (opened.allots (inv.ensureSess a) known incoming_new rfl commits)
  | changeOrder a m change target now =>
    refine .of_ensureSess (a := a) (withMarket_posting stepped fun known ends => ?_)
    rw [Outcome.state_map] at ends
    exact changeTarget_posting (inv.ensureSess a) known (InMarket.ensureSess inMarket a) ends
  | createTrade a m ref side lots ticks liqInd cpty created =>
    refine .of_ensureSess (a := a) (withMarket_posting stepped fun known ends => ?_)
    rw [Outcome.state_map] at ends
    exact (createTrade_spec (inv.ensureSess a) a m ref side lots ticks liqInd cpty created).posting known ends rfl rfl rfl rfl
      rfl rfl
  | archiveExec a e now =>
    refine .of_ensureSess (a := a) ?_
    simp only [App.step, call, Outcome.state_map, archiveExec] at stepped
    split at stepped
    next => cases stepped; exact .of_view rfl
    next => exact (doArchiveTrade_spec _ _ _ _ _).posting stepped (.inr ⟨e, now, rfl, rfl⟩)
  | archiveTrade a m id now =>
    refine .of_ensureSess (a := a) ?_
    simp only [App.step, call, Outcome.state_map, archiveTrade] at stepped
    split at stepped
    next => cases stepped; exact .of_view rfl
    next e found =>
      exact (doArchiveTrade_spec _ _ _ _ _).posting stepped (.inl ⟨_, e, found, .inr rfl⟩)
  | archiveTrades a m ids now =>
    refine .of_ensureSess (a := a) ?_
    simp only [App.step, call, Outcome.state_map] at stepped
    exact (archiveTrades_spec _ a m ids now).posting stepped
  | pop =>
    cases stepped
    exact .popped rfl rfl fun n => le_rfl

/-- The messages of a step. -/
theorem Posting.posts (posting : Posting app op app') (call : op ≠ .pop) : ∃ msgs, app.mq.Posts msgs app'.mq := by
  cases posting with
  | same mq => exact ⟨[], mq ▸ .nil _⟩
  | opened _ _ posts => exact ⟨_, posts⟩
  | updated posts => exact ⟨_, posts⟩
  | allotted allots => exact ⟨_, allots.journaled⟩
  | archived posts => exact ⟨_, posts⟩
  | popped pops => exact absurd pops call

/-- A market that a step makes is announced. -/
theorem created_posts {n : Int} {msgs : List Msg} (inv : app.Inv) (stepped : app.step op = some app')
    (posted : app'.mq.posted = app.mq.posted ++ msgs) (absent : app.listing n = none) (listed : (app'.listing n).isSome) :
    ∃ instr settlDay state, .createMarket n instr settlDay state ∈ msgs := by
  cases step_lists inv stepped with
  | kept listing posn =>
    rw [listing, absent] at listed
    cases listed
  | @created i instr d state busDay creates returns listing posn =>
    by_cases here : n = toMarketId i d
    · subst creates here
      simp only [App.step, call, Outcome.state_map, createMarket] at stepped returns
      split at stepped
      next closed => rw [if_pos closed] at returns; cases returns
      next open_ =>
        rw [if_neg open_] at returns
        split at stepped
        next exists_ => rw [if_pos exists_] at returns; cases returns
        next absent =>
          rw [if_neg absent] at returns
          split at stepped
          next full => rw [full] at returns; cases returns
          next mq journal =>
            cases stepped
            have whole : mq.posted = app.mq.posted ++ msgs := posted
            rw [MsgQueue.post_eq journal] at whole
            refine ⟨instr.buf, d, state, ?_⟩
            rw [← List.append_cancel_left whole]
            exact List.mem_singleton_self _
    · rw [listing, update_of_ne here, absent] at listed
      cases listed

end App

end Swirly
