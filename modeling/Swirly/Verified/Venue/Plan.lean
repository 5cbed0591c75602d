import Swirly.Verified.Journal
import Swirly.Verified.Venue.Change

/-!
# The plan of a call

Whatever a call is, it comes to one of two things.  It is refused, or its messages are posted together and it is committed.
The plan says which, and it is made before anything is changed.

A queue looks to a market like one that has lost messages of other markets: it has the messages of the market, and no less
room.
-/

namespace Swirly

open Function

/-- The market that a message is about. -/
def Msg.marketId : Msg → Int
  | .createMarket id _ _ _ => id
  | .updateMarket id _ => id
  | .createExec body => body.marketId
  | .archiveTrade marketId _ _ => marketId

namespace MsgQueue

variable {mq mq' q r : MsgQueue} {msg : Msg} {msgs more : List Msg} {es : List Exec} {m now : Int} {ids : List Int}

/-- Messages that were popped have been posted. -/
def Sound (mq : MsgQueue) : Prop := mq.popped ≤ mq.posted.length

def postAll (mq : MsgQueue) (msgs : List Msg) : Option MsgQueue :=
  if mq.reserve < msgs.length then none else some { mq with posted := mq.posted ++ msgs }

theorem postAll_eq_some : mq.postAll msgs = some mq' ↔ msgs.length ≤ mq.reserve ∧ { mq with posted := mq.posted ++ msgs } = mq' := by
  rw [postAll]
  split
  next short => simp; omega
  next enough => simp; omega

theorem post_eq_postAll : mq.post msg = mq.postAll [msg] := by
  rw [post, postAll]
  by_cases room : mq.size < mq.capacity
  · rw [if_pos room, if_neg (by simp only [reserve, List.length_singleton]; omega)]
  · rw [if_neg room, if_pos (by simp only [reserve, List.length_singleton]; omega)]

theorem createExecs_eq_postAll : mq.createExecs es = mq.postAll (es.map fun e => .createExec (execBody e)) := by
  rw [postAll, List.length_map]
  cases posted : mq.createExecs es with
  | none => rw [if_pos (createExecs_eq_none.mp posted)]
  | some next =>
    have enough : ¬ mq.reserve < es.length := fun short => by
      rw [createExecs_eq_none.mpr short] at posted
      cases posted
    rw [if_neg enough]
    exact congrArg some (Journaled.of_createExecs posted)

theorem Sound.size_append (sound : mq.Sound) : ({ mq with posted := mq.posted ++ msgs } : MsgQueue).size = mq.size + msgs.length := by
  rw [Sound] at sound
  simp only [size, List.length_append]
  omega

theorem Sound.append (sound : mq.Sound) : ({ mq with posted := mq.posted ++ msgs } : MsgQueue).Sound := by
  rw [Sound] at sound ⊢
  simp only [List.length_append]
  omega

theorem Sound.pop (sound : mq.Sound) : mq.pop.Sound := by
  rw [MsgQueue.pop]
  split
  next => assumption
  next => exact sound

theorem postAll_append (sound : mq.Sound) : (mq.postAll msgs).bind (·.postAll more) = mq.postAll (msgs ++ more) := by
  have reserve : ({ mq with posted := mq.posted ++ msgs } : MsgQueue).reserve = mq.reserve - msgs.length := by
    rw [MsgQueue.reserve, sound.size_append, MsgQueue.reserve, Nat.sub_add_eq]
  rw [postAll, postAll, List.length_append]
  by_cases short : mq.reserve < msgs.length
  · rw [if_pos short, if_pos (by omega)]
    rfl
  · rw [if_neg short, Option.bind_some, postAll, reserve]
    by_cases full : mq.reserve - msgs.length < more.length
    · rw [if_pos full, if_pos (by omega)]
    · rw [if_neg full, if_neg (by omega), List.append_assoc]

/-- The messages that carry the ids. -/
def archiveMsgs (m now : Int) : Nat → List Int → List Msg
  | 0, ids => [.archiveTrade m (padIds (ids.take maxIds)) (msSinceEpoch now)]
  | n + 1, ids => .archiveTrade m (padIds (ids.take maxIds)) (msSinceEpoch now) :: archiveMsgs m now n (ids.drop maxIds)

theorem length_archiveMsgs (n : Nat) : (archiveMsgs m now n ids).length = n + 1 := by
  induction n generalizing ids with
  | zero => rfl
  | succ n inductionHypothesis => rw [archiveMsgs, List.length_cons, inductionHypothesis]

theorem marketId_archiveMsgs {n : Nat} (member : msg ∈ archiveMsgs m now n ids) : msg.marketId = m := by
  induction n generalizing ids with
  | zero =>
    rw [List.mem_singleton.mp member]
    rfl
  | succ n inductionHypothesis =>
    cases List.mem_cons.mp member with
    | inl here =>
      rw [here]
      rfl
    | inr later => exact inductionHypothesis later

theorem archiveChunks_eq_postAll (sound : mq.Sound) (n : Nat) :
    archiveChunks m now n ids mq = mq.postAll (archiveMsgs m now n ids) := by
  induction n generalizing mq ids with
  | zero => exact post_eq_postAll
  | succ n inductionHypothesis =>
    rw [archiveChunks, archiveMsgs, ← List.singleton_append, ← postAll_append sound, doArchiveTrade, post_eq_postAll]
    cases posted : mq.postAll [Msg.archiveTrade m (padIds (ids.take maxIds)) (msSinceEpoch now)] with
    | none => rfl
    | some next =>
      have soundNext : next.Sound := (postAll_eq_some.mp posted).2 ▸ sound.append
      exact inductionHypothesis soundNext

theorem archiveTrades_eq_postAll (sound : mq.Sound) :
    mq.archiveTrades m ids now = mq.postAll (archiveMsgs m now (steps ids.length - 1) ids) := by
  rw [archiveTrades, archiveChunks_eq_postAll sound]
  split
  next short => rw [postAll, if_pos (by rw [length_archiveMsgs]; omega)]
  next => rfl

/-! ## The messages of one market -/

/-- The second queue is the first one without some messages of other markets. -/
structure Looks (m : Int) (q r : MsgQueue) : Prop where
  capacity : r.capacity = q.capacity
  size : r.size ≤ q.size
  posted : r.posted.filter (fun msg => msg.marketId = m) = q.posted.filter fun msg => msg.marketId = m
  sound : q.Sound
  soundLooks : r.Sound

namespace Looks

theorem refl (sound : q.Sound) : Looks m q q := ⟨rfl, le_rfl, rfl, sound, sound⟩

/-- What fits into the fuller queue fits into the other. -/
theorem postAll (looks : Looks m q r) (posted : q.postAll msgs = some mq) :
    ∃ mq', r.postAll msgs = some mq' ∧ Looks m mq mq' := by
  obtain ⟨enough, rfl⟩ := postAll_eq_some.mp posted
  have more : msgs.length ≤ r.reserve := by
    have size := looks.size
    rw [reserve] at enough ⊢
    rw [looks.capacity]
    omega
  refine ⟨_, postAll_eq_some.mpr ⟨more, rfl⟩, looks.capacity, ?_, ?_, looks.sound.append, looks.soundLooks.append⟩
  · rw [looks.sound.size_append, looks.soundLooks.size_append]
    exact Nat.add_le_add_right looks.size _
  · simp only [List.filter_append, looks.posted]

/-- Messages of other markets do not show. -/
theorem skip (looks : Looks m q r) (others : ∀ msg ∈ msgs, msg.marketId ≠ m) (posted : q.postAll msgs = some mq) :
    Looks m mq r := by
  obtain ⟨enough, rfl⟩ := postAll_eq_some.mp posted
  refine ⟨looks.capacity, ?_, ?_, looks.sound.append, looks.soundLooks⟩
  · rw [looks.sound.size_append]
    exact Nat.le_add_right_of_le looks.size
  · have none_here : msgs.filter (fun msg => msg.marketId = m) = [] :=
      List.filter_eq_nil_iff.mpr fun msg member here => others msg member (of_decide_eq_true here)
    simp only [List.filter_append, none_here, List.append_nil, looks.posted]

theorem pop (looks : Looks m q r) : Looks m q.pop r.pop := by
  have size : ∀ mq : MsgQueue, mq.pop.size = mq.size - 1 ∧ mq.pop.capacity = mq.capacity ∧ mq.pop.posted = mq.posted := by
    intro mq
    rw [MsgQueue.pop]
    split
    next => exact ⟨by simp only [MsgQueue.size]; omega, rfl, rfl⟩
    next => exact ⟨by simp only [MsgQueue.size]; omega, rfl, rfl⟩
  have less := looks.size
  refine ⟨?_, ?_, ?_, looks.sound.pop, looks.soundLooks.pop⟩
  · rw [(size q).2.1, (size r).2.1, looks.capacity]
  · rw [(size q).1, (size r).1]
    omega
  · rw [(size q).2.2, (size r).2.2, looks.posted]

end Looks

end MsgQueue

namespace Venue

/-- What a call comes to: it is refused, or its messages are posted and it is committed. -/
inductive Plan where
  | refuse (e : Exception) (ids : Nat)
  | post (msgs : List Msg) (ids : Nat) (commit : Venue → Venue) (answer : Venue → Answer)

namespace Plan

/-- A call gives out its ids first, and is undone when the queue is full. -/
def carryOut (m : Int) (v : Venue) : Plan → Except Exception Answer × Venue
  | refuse e ids => (.error e, v.burn m ids)
  | post msgs ids commit answer =>
    match v.mq.postAll msgs with
    | none => (.error .insufficientQueueCapacity, v.burn m ids)
    | some mq =>
      let next := commit ({ v with mq }.burn m ids)
      (.ok (answer next), next)

end Plan

def execMsgs (es : List Exec) : List Msg := es.map fun e => .createExec (MsgQueue.execBody e)

noncomputable def orderPlan (v : Venue) (a : Symbol) (m : Int) (terms : Symbol × Int × Nat) (ref : Bytes) (side : Side)
    (lots ticks minLots now busDay : Int) : Plan :=
  match v.admission a terms ref lots minLots busDay with
  | some e => .refuse e 0
  | none =>
    let o := Order.make a m terms.1 terms.2.1 (v.maxId m + 1) ref side lots ticks minLots now
    let ds := v.deals m o
    .post (execMsgs (Exec.make o o.id now :: ds.flatMap fun d => d.execs o now)) (1 + 2 * ds.length)
      (fun w => w.accept m o now ds)
      fun w => .response (some m) (o.dealt now ds :: (ds.filter fun d => d.maker.accnt = a).map fun d => d.traded now)
        (Exec.make o o.id now :: ds.flatMap fun d => d.told o now) (if ds = [] then none else some (w.posn a m))

def changePlan (v : Venue) (m : Int) (change : App.Change) (now : Int) (os : List Order) : Plan :=
  let reports := changeReports change now (v.maxId m) os
  .post (execMsgs reports) os.length (fun w => (os.zip reports).foldl (fun w x => w.apply m change now x.1 x.2) w)
    fun _ => .response (some m) (os.map (changed change now)) reports none

def idsPlan (v : Venue) (a : Symbol) (m : Int) (change : App.Change) (ids : List Int) (now : Int) : Plan :=
  match v.stage a m change ids with
  | (n, .error e) => .refuse e n
  | (_, .ok os) => v.changePlan m change now os

def refPlan (v : Venue) (a : Symbol) (m : Int) (change : App.Change) (ref : Bytes) (now : Int) : Plan :=
  match v.findRef a m ref with
  | none => .refuse (.orderRefNotFound ref) 0
  | some o =>
    match change.check o with
    | some e => .refuse e 0
    | none => v.changePlan m change now [o]

def tradePlan (v : Venue) (a : Symbol) (m : Int) (terms : Symbol × Int × Nat) (ref : Bytes) (side : Side) (lots ticks : Int)
    (liqInd : LiqInd) (cpty : Symbol) (created : Int) : Plan :=
  let trade := Exec.makeManual m terms.1 terms.2.1 (v.maxId m + 1) a ref side lots ticks (v.posn a m).netLots
    (v.posn a m).netCost liqInd cpty created
  if cpty.isEmpty then .post (execMsgs [trade]) 1 (fun w => w.file a m (trade.posn 0 0)) fun _ => .trades (trade.posn 0 0) none
  else
    let cptyTrade := trade.opposite (v.maxId m + 2)
    .post (execMsgs [trade, cptyTrade]) 2 (fun w => (w.file cpty m (cptyTrade.posn 0 0)).file a m (trade.posn 0 0))
      fun _ => .trades (trade.posn 0 0) (some (cptyTrade.posn 0 0))

def archivePlan (v : Venue) (a : Symbol) (m : Int) (ids : List Int) (now : Int) : Plan :=
  match ids.find? fun id => (v.trades a (idKey m id)).isNone with
  | some id => .refuse (.tradeNotFound id) 0
  | none =>
    .post (MsgQueue.archiveMsgs m now (MsgQueue.steps ids.length - 1) ids) 0
      (fun w => w.unfile a m ids) fun _ => .done

def setTerms (v : Venue) (m : Int) (terms : Symbol × Int × Nat) : Venue := { v with terms := update v.terms m (some terms) }

def createMarketPlan (v : Venue) (m : Int) (instr : Symbol) (settlDay : Int) (state : Nat) (busDay : Int) : Plan :=
  if settlDay ≠ 0 ∧ settlDay < busDay then .refuse .settlDayBeforeBusDay 0
  else if (v.terms m).isSome then .refuse (.marketAlreadyExists instr settlDay) 0
  else .post [.createMarket m instr.buf settlDay state] 0 (fun w => w.setTerms m (instr, settlDay, state)) fun _ => .done

def updateMarketPlan (m : Int) (terms : Symbol × Int × Nat) (state : Nat) : Plan :=
  .post [.updateMarket m state] 0 (fun w => w.setTerms m (terms.1, terms.2.1, state)) fun _ => .done

/-- The plan of a call that looks up its market. -/
def marketPlan (v : Venue) (m : Int) (plan : Symbol × Int × Nat → Plan) : Plan :=
  match v.terms m with
  | none => .refuse (.marketNotFound m) 0
  | some terms => plan terms

/-- The market that a call names. -/
def Call.market : Call → Option Int
  | .sess _ | .pop => none
  | .createMarket instrId _ settlDay _ _ => some (toMarketId instrId settlDay)
  | .updateMarket m _ | .createOrder _ m _ _ _ _ _ _ _ | .changeOrder _ m _ _ _ | .createTrade _ m _ _ _ _ _ _ _
  | .archiveTrade _ m _ _ | .archiveTrades _ m _ _ => some m

/-- The plan of a call that names a market. -/
noncomputable def Call.plan (v : Venue) : Call → Option Plan
  | .sess _ | .pop => none
  | .createMarket instrId instr settlDay state busDay =>
    some (v.createMarketPlan (toMarketId instrId settlDay) instr settlDay state busDay)
  | .updateMarket m state => some (v.marketPlan m fun terms => updateMarketPlan m terms state)
  | .createOrder a m ref side lots ticks minLots now busDay =>
    some (v.marketPlan m fun terms => v.orderPlan a m terms ref side lots ticks minLots now busDay)
  | .changeOrder a m change (.id id) now => some (v.marketPlan m fun _ => v.idsPlan a m change [id] now)
  | .changeOrder a m change (.ref ref) now => some (v.marketPlan m fun _ => v.refPlan a m change ref now)
  | .changeOrder a m change (.ids ids) now => some (v.marketPlan m fun _ => v.idsPlan a m change ids now)
  | .createTrade a m ref side lots ticks liqInd cpty created =>
    some (v.marketPlan m fun terms => v.tradePlan a m terms ref side lots ticks liqInd cpty created)
  | .archiveTrade a m id now => some (v.archivePlan a m [id] now)
  | .archiveTrades a m ids now => some (v.archivePlan a m ids now)

/-! ## The orders of a plan -/

variable {v : Venue} {a cpty : Symbol} {m : Int} {terms : Symbol × Int × Nat} {ref : Bytes} {side : Side}
  {lots ticks minLots now busDay created : Int} {liqInd : LiqInd} {change : App.Change} {ids : List Int}
  {o : Order} {os : List Order} {c : Call}

theorem Deal.mem_number {sums : App.Sums} {id : Int} {xs : List (Order × Int)} {d : Deal} (member : d ∈ Deal.number sums id xs) :
    d.maker ∈ xs.map Prod.fst := by
  induction xs generalizing sums id with
  | nil => cases member
  | cons x xs inductionHypothesis =>
    cases List.mem_cons.mp member with
    | inl here => exact List.mem_cons.mpr (.inl (here ▸ rfl))
    | inr later => exact List.mem_cons_of_mem _ (inductionHypothesis later)

theorem mem_deals {d : Deal} (member : d ∈ v.deals m o) : d.maker ∈ v.book m o.side.opposite := by
  have offered := (Greedy.fill_prefix _ _).subset (Deal.mem_number member)
  simp only [offers, List.map_map] at offered
  obtain ⟨maker, taken, same⟩ := List.mem_map.mp offered
  exact same ▸ (List.takeWhile_sublist _).subset taken

theorem dealt_same (o : Order) (now : Int) (ds : List Deal) :
    (o.dealt now ds).marketId = o.marketId ∧ (o.dealt now ds).accnt = o.accnt ∧ (o.dealt now ds).ref = o.ref := by
  rw [Order.dealt]
  split <;> exact ⟨rfl, rfl, rfl⟩

theorem changed_same (change : App.Change) (now : Int) (o : Order) : (changed change now o).marketId = o.marketId ∧
    (changed change now o).accnt = o.accnt ∧ (changed change now o).ref = o.ref := by
  cases change <;> exact ⟨rfl, rfl, rfl⟩

/-- The orders that pass the check are in the book. -/
theorem mem_stage {k : Nat} (staged : v.stage a m change ids = (k, .ok os)) : ∀ o ∈ os, o ∈ v.orders m := by
  induction ids generalizing k os with
  | nil =>
    cases staged
    simp
  | cons id ids inductionHypothesis =>
    rw [stage] at staged
    cases found : v.find a m id with
    | none =>
      rw [found] at staged
      cases staged
    | some o =>
      simp only [found] at staged
      cases checked : change.check o with
      | some e =>
        simp only [checked] at staged
        cases staged
      | none =>
        cases rest : v.stage a m change ids with
        | mk n later =>
          simp only [checked, rest] at staged
          cases later with
          | error e => cases staged
          | ok os' =>
            obtain rfl : o :: os' = os := Except.ok.inj (Prod.ext_iff.mp staged).2
            exact List.forall_mem_cons.mpr ⟨List.mem_of_find?_eq_some found, inductionHypothesis rest⟩

/-! ## Calls are carried out as planned -/

/-- A plan that gives out no ids. -/
theorem Plan.carryOut_zero {msgs : List Msg} {commit : Venue → Venue} {answer : Venue → Answer} :
    (Plan.post msgs 0 commit answer).carryOut m v =
      match v.mq.postAll msgs with
      | none => (.error .insufficientQueueCapacity, v)
      | some mq => (.ok (answer (commit { v with mq })), commit { v with mq }) := by
  rw [Plan.carryOut]
  cases v.mq.postAll msgs with
  | none => exact Prod.ext rfl burn_zero
  | some mq =>
    have kept : ({ v with mq } : Venue).burn m 0 = { v with mq } := burn_zero
    simp only [kept]

theorem createOrder_carried : v.createOrder a m terms ref side lots ticks minLots now busDay =
    (v.orderPlan a m terms ref side lots ticks minLots now busDay).carryOut m v := by
  rw [createOrder, orderPlan]
  cases v.admission a terms ref lots minLots busDay with
  | some e => exact Prod.ext rfl burn_zero.symm
  | none =>
    simp only [MsgQueue.createExecs_eq_postAll]
    rw [Plan.carryOut, execMsgs]
    cases v.mq.postAll _ with
    | none => exact rfl
    | some mq => exact rfl

theorem changeOrders_carried : v.changeOrders m change now os = (v.changePlan m change now os).carryOut m v := by
  simp only [changeOrders, MsgQueue.createExecs_eq_postAll]
  rw [changePlan, Plan.carryOut, execMsgs]
  cases v.mq.postAll _ with
  | none => exact rfl
  | some mq => exact rfl

theorem changeByIds_carried : v.changeByIds a m change ids now = (v.idsPlan a m change ids now).carryOut m v := by
  rw [changeByIds, idsPlan]
  cases v.stage a m change ids with
  | mk n staged =>
    cases staged with
    | error e => exact rfl
    | ok os => exact changeOrders_carried

theorem changeByRef_carried : v.changeByRef a m change ref now = (v.refPlan a m change ref now).carryOut m v := by
  rw [changeByRef, refPlan]
  cases v.findRef a m ref with
  | none => exact Prod.ext rfl burn_zero.symm
  | some o =>
    cases checked : change.check o with
    | some e =>
      simp only [checked]
      exact Prod.ext rfl burn_zero.symm
    | none =>
      simp only [checked]
      exact changeOrders_carried

theorem createTrade_carried : v.createTrade a m terms ref side lots ticks liqInd cpty created =
    (v.tradePlan a m terms ref side lots ticks liqInd cpty created).carryOut m v := by
  by_cases alone : cpty.isEmpty = true
  · simp only [createTrade, tradePlan, if_pos alone, ← MsgQueue.createExecs_single, MsgQueue.createExecs_eq_postAll]
    rewrite [Plan.carryOut, execMsgs]
    cases v.mq.postAll _ with
    | none => exact rfl
    | some mq => exact rfl
  · simp only [createTrade, tradePlan, if_neg alone, MsgQueue.createExecs_eq_postAll]
    rewrite [Plan.carryOut, execMsgs]
    cases v.mq.postAll _ with
    | none => exact rfl
    | some mq => exact rfl

theorem archiveTrades_carried (sound : v.mq.Sound) : v.archiveTrades a m ids now = (v.archivePlan a m ids now).carryOut m v := by
  rw [archiveTrades, archivePlan]
  cases ids.find? fun id => (v.trades a (idKey m id)).isNone with
  | some id => exact Prod.ext rfl burn_zero.symm
  | none =>
    rw [MsgQueue.archiveTrades_eq_postAll sound]
    refine Eq.trans ?_ Plan.carryOut_zero.symm
    cases v.mq.postAll _ with
    | none => exact rfl
    | some mq => exact rfl

theorem createMarket_carried {instr : Symbol} {settlDay : Int} {state : Nat} :
    v.createMarket m instr settlDay state busDay = (v.createMarketPlan m instr settlDay state busDay).carryOut m v := by
  rw [createMarket, createMarketPlan]
  by_cases early : settlDay ≠ 0 ∧ settlDay < busDay
  · rw [if_pos early, if_pos early]
    exact Prod.ext rfl burn_zero.symm
  · rw [if_neg early, if_neg early]
    by_cases known : (v.terms m).isSome
    · rw [if_pos known, if_pos known]
      exact Prod.ext rfl burn_zero.symm
    · rw [if_neg known, if_neg known, MsgQueue.createMarket, MsgQueue.post_eq_postAll]
      refine Eq.trans ?_ Plan.carryOut_zero.symm
      cases v.mq.postAll _ with
      | none => exact rfl
      | some mq => exact rfl

theorem updateMarket_carried {state : Nat} : v.updateMarket m terms state = (updateMarketPlan m terms state).carryOut m v := by
  rw [updateMarket, updateMarketPlan, MsgQueue.updateMarket, MsgQueue.post_eq_postAll]
  refine Eq.trans ?_ Plan.carryOut_zero.symm
  cases v.mq.postAll _ with
  | none => exact rfl
  | some mq => exact rfl

theorem withMarket_carried {call : Symbol × Int × Nat → Except Exception Answer × Venue} {plan : Symbol × Int × Nat → Plan}
    (each : ∀ terms, call terms = (plan terms).carryOut m v) : v.withMarket m call = (v.marketPlan m plan).carryOut m v := by
  rw [withMarket, marketPlan]
  cases v.terms m with
  | none => exact Prod.ext rfl burn_zero.symm
  | some terms => exact each terms

/-- Every call in a market is carried out as planned. -/
theorem call_carried (sound : v.mq.Sound) (names : c.market = some m) :
    ∃ plan, c.plan v = some plan ∧ v.call c = plan.carryOut m v := by
  cases c with
  | sess => cases names
  | pop => cases names
  | createMarket =>
    obtain rfl := Option.some.inj names
    exact ⟨_, rfl, createMarket_carried⟩
  | updateMarket =>
    obtain rfl := Option.some.inj names
    exact ⟨_, rfl, withMarket_carried fun _ => updateMarket_carried⟩
  | createOrder =>
    obtain rfl := Option.some.inj names
    exact ⟨_, rfl, withMarket_carried fun _ => createOrder_carried⟩
  | changeOrder a n change target now =>
    obtain rfl := Option.some.inj names
    cases target with
    | id => exact ⟨_, rfl, withMarket_carried fun _ => changeByIds_carried⟩
    | ref => exact ⟨_, rfl, withMarket_carried fun _ => changeByRef_carried⟩
    | ids => exact ⟨_, rfl, withMarket_carried fun _ => changeByIds_carried⟩
  | createTrade =>
    obtain rfl := Option.some.inj names
    exact ⟨_, rfl, withMarket_carried fun _ => createTrade_carried⟩
  | archiveTrade =>
    obtain rfl := Option.some.inj names
    exact ⟨_, rfl, archiveTrades_carried sound⟩
  | archiveTrades =>
    obtain rfl := Option.some.inj names
    exact ⟨_, rfl, archiveTrades_carried sound⟩

end Venue

end Swirly
