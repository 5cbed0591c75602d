import Swirly.Verified.Venue.Call
import Swirly.Verified.Venue.Symmetry

/-!
# The exchange under a symmetry

A venue and its image have the same orders to find, make corresponding plans and are corresponding venues again afterwards.  So
it goes on for as long as the engine runs.
-/

namespace Swirly

open Function

namespace Venue

/-- An order of a market is told by its account and its id, or by its account and its reference. -/
def Distinct (v : Venue) : Prop :=
  ∀ m, ∀ o ∈ v.orders m, ∀ o' ∈ v.orders m, o.accnt = o'.accnt →
    (o.id = o'.id ∨ (o.ref.data = o'.ref.data ∧ o.ref.data ≠ [])) → o = o'

namespace Symmetry

variable {S : Symmetry} {v w : Venue} {m : Int} {a cpty : Symbol} {o : Order} {e : Exec} {d : Deal} {now : Int}

namespace Related

theorem mem_orders (related : S.Related v w) {o' : Order} : o' ∈ w.orders m ↔ ∃ o ∈ v.orders m, S.order o = o' := by
  have listed : ∀ s, o' ∈ w.book m s ↔ ∃ o ∈ v.book m (S.side s), S.order o = o' := fun s => by
    rw [← S.side_side s, related.book, List.mem_map, side_side]
  simp only [Venue.orders, List.mem_append, listed]
  cases mirrored : S.mirrored <;> simp only [side, mirrored, Side.opposite] <;> grind

/-- A search of the book finds the same. -/
theorem find?_orders (related : S.Related v w) {P P' : Order → Bool} (same : ∀ o ∈ v.orders m, P' (S.order o) = P o)
    (unique : ∀ o ∈ v.orders m, ∀ o' ∈ v.orders m, P o → P o' → o = o') :
    (w.orders m).find? P' = ((v.orders m).find? P).map S.order := by
  cases found : (v.orders m).find? P with
  | some o =>
    have member := List.mem_of_find?_eq_some found
    have holds := List.find?_some found
    refine List.find?_of_unique (related.mem_orders.mpr ⟨o, member, rfl⟩) (by rw [same o member, holds]) fun o'' listed holds'' => ?_
    obtain ⟨o', member', rfl⟩ := related.mem_orders.mp listed
    rw [same o' member'] at holds''
    rw [unique o' member' o member holds'' holds]
  | none =>
    refine List.find?_eq_none.mpr fun o'' listed => ?_
    obtain ⟨o', member', rfl⟩ := related.mem_orders.mp listed
    rw [same o' member']
    exact List.find?_eq_none.mp found o' member'

theorem mem_orders_home (related : S.Related v w) (member : o ∈ v.orders m) : o.marketId = m := by
  cases List.mem_append.mp member with
  | inl bid => exact related.home m .buy o bid
  | inr offer => exact related.home m .sell o offer

theorem find (related : S.Related v w) (distinct : v.Distinct) (a : Symbol) (m id : Int) :
    w.find (S.accnt a) m (S.id m id) = (v.find a m id).map S.order := by
  refine related.find?_orders (fun o member => ?_) fun o member o' member' first second => ?_
  · have own : (S.order o).id = S.id m id ↔ o.id = id := by
      rw [← related.mem_orders_home member]
      exact S.id_eq_iff
    have accnt : (S.order o).accnt = S.accnt a ↔ o.accnt = a := S.accnt_eq_iff
    simp only [own, accnt]
  · obtain ⟨accnt, own⟩ := of_decide_eq_true first
    obtain ⟨accnt', own'⟩ := of_decide_eq_true second
    exact distinct m o member o' member' (accnt.trans accnt'.symm) (.inl (own.trans own'.symm))

theorem findRef (related : S.Related v w) (distinct : v.Distinct) (a : Symbol) (m : Int) (ref : Bytes) :
    w.findRef (S.accnt a) m ref = (v.findRef a m ref).map S.order := by
  refine related.find?_orders (fun o member => ?_) fun o member o' member' first second => ?_
  · have accnt : (S.order o).accnt = S.accnt a ↔ o.accnt = a := S.accnt_eq_iff
    simp only [accnt, ref_order]
  · obtain ⟨accnt, stored, referred⟩ := of_decide_eq_true first
    obtain ⟨accnt', stored', -⟩ := of_decide_eq_true second
    exact distinct m o member o' member' (accnt.trans accnt'.symm) (.inr ⟨stored.trans stored'.symm, by rw [stored]; exact referred⟩)

theorem refTaken (related : S.Related v w) (distinct : v.Distinct) (a : Symbol) (ref : Bytes) :
    w.RefTaken (S.accnt a) ref ↔ v.RefTaken a ref := by
  simp only [RefTaken, related.findRef distinct, Option.isSome_map]

end Related

/-! ## Plans alike -/

/-- The errors are the same, except that ids are renamed. -/
inductive Errors (S : Symmetry) (m : Int) : Exception → Exception → Prop
  | same (e : Exception) : Errors S m e e
  | orderNotFound (id : Int) : Errors S m (.orderNotFound id) (.orderNotFound (S.id m id))
  | tooLate (id : Int) : Errors S m (.tooLate id) (.tooLate (S.id m id))
  | tradeNotFound (id : Int) : Errors S m (.tradeNotFound id) (.tradeNotFound (S.id m id))

/-- Both succeed alike, or both are refused for the same reason. -/
inductive Alike (S : Symmetry) (m : Int) {α β : Type} (R : α → β → Prop) : Except Exception α → Except Exception β → Prop
  | ok {a : α} {b : β} (same : R a b) : Alike S m R (.ok a) (.ok b)
  | error {e e' : Exception} (errors : S.Errors m e e') : Alike S m R (.error e) (.error e')

def Answers (S : Symmetry) (m : Int) : Except Exception Answer → Except Exception Answer → Prop :=
  S.Alike m fun answer answer' => answer' = S.answer answer

inductive Plans (S : Symmetry) (m : Int) : Plan → Plan → Prop
  | refuse {e e' : Exception} (errors : S.Errors m e e') (k : Nat) : Plans S m (.refuse e k) (.refuse e' k)
  | post {msgs msgs' : List Msg} {commit commit' : Venue → Venue} {answer answer' : Venue → Answer} (k : Nat)
      (length : msgs'.length = msgs.length) (committed : ∀ v w, S.Related v w → S.Related (commit v) (commit' w))
      (told : ∀ v w, S.Related v w → answer' w = S.answer (answer v)) :
      Plans S m (.post msgs k commit answer) (.post msgs' k commit' answer')

theorem Plans.carryOut {plan plan' : Plan} (plans : Plans S m plan plan') (related : S.Related v w) :
    S.Answers m (plan.carryOut m v).1 (plan'.carryOut m w).1 ∧ S.Related (plan.carryOut m v).2 (plan'.carryOut m w).2 := by
  cases plans with
  | refuse errors k => exact ⟨.error errors, related.burn k⟩
  | @post msgs msgs' commit commit' answer answer' k length committed told =>
    have size : w.mq.size = v.mq.size := by rw [MsgQueue.size, MsgQueue.size, related.posted, related.popped]
    have reserve : w.mq.reserve = v.mq.reserve := by rw [MsgQueue.reserve, MsgQueue.reserve, related.capacity, size]
    rw [Plan.carryOut, Plan.carryOut, MsgQueue.postAll, MsgQueue.postAll, reserve, length]
    by_cases full : v.mq.reserve < msgs.length
    · rw [if_pos full, if_pos full]
      exact ⟨.error (.same _), related.burn k⟩
    · rw [if_neg full, if_neg full]
      have posted : ({ w.mq with posted := w.mq.posted ++ msgs' } : MsgQueue).posted.length =
          ({ v.mq with posted := v.mq.posted ++ msgs } : MsgQueue).posted.length := by
        simp only [List.length_append, length, related.posted]
      have next := committed _ _ ((@Related.setMq S v w related { v.mq with posted := v.mq.posted ++ msgs }
        { w.mq with posted := w.mq.posted ++ msgs' } related.capacity posted related.popped related.sound.append).burn (m := m) k)
      exact ⟨.ok (told _ _ next), next⟩

variable {terms : Symbol × Int × Nat} {ref : Bytes} {side : Side} {lots ticks minLots busDay created : Int} {liqInd : LiqInd}
  {change : App.Change} {ids : List Int} {os : List Order}

theorem orderPlans (related : S.Related v w) (distinct : v.Distinct) :
    Plans S m (v.orderPlan a m terms ref side lots ticks minLots now busDay)
      (w.orderPlan (S.accnt a) m terms ref (S.side side) lots (S.price ticks) minLots now busDay) := by
  have admission : w.admission (S.accnt a) terms ref lots minLots busDay = v.admission a terms ref lots minLots busDay := by
    have taken := related.refTaken distinct a ref
    by_cases known : v.RefTaken a ref
    · rw [Venue.admission, Venue.admission, if_pos known, if_pos (taken.mpr known)]
    · rw [Venue.admission, Venue.admission, if_neg known, if_neg (mt taken.mp known)]
  rw [orderPlan, orderPlan, admission]
  cases v.admission a terms ref lots minLots busDay with
  | some e => exact .refuse (.same e) 0
  | none =>
    obtain ⟨o, made⟩ : ∃ o, o = Order.make a m terms.1 terms.2.1 (v.maxId m + 1) ref side lots ticks minLots now := ⟨_, rfl⟩
    have first := related.ids m 1 (by omega)
    have made' : Order.make (S.accnt a) m terms.1 terms.2.1 (w.maxId m + 1) ref (S.side side) lots (S.price ticks) minLots now =
        S.order o := by rw [made, ← order_make, first]
    have here : o.marketId = m := by rw [made]; rfl
    have own : o.id = v.maxId m + 1 := by rw [made]; rfl
    have accnt : o.accnt = a := by rw [made]; rfl
    have ids : ∀ j, 0 < j → S.id m (o.id + j) = S.id m o.id + j := fun j positive => by
      rw [own, first, add_assoc, related.ids m (1 + j) (by omega), add_assoc]
    obtain ⟨deals, numbered⟩ := related.deals here ids
    have entered : Exec.make (S.order o) (S.order o).id now = S.exec (.make o o.id now) := exec_make
    have told : ∀ d ∈ v.deals m o, (S.deal d).told (S.order o) now = (d.told o now).map S.exec := fun d member =>
      Related.told_deal (numbered d member).2 (here.trans (numbered d member).1.symm)
    simp only [← made, made', deals]
    rw [List.length_map]
    refine .post _ ?_ (fun v' w' alike => ?_) fun v' w' alike => ?_
    · simp [execMsgs, List.length_flatMap, Deal.execs, List.map_map, Function.comp_def]
    · exact alike.accept here numbered
    · have makers : ((v.deals m o).map S.deal).filter (fun d => d.maker.accnt = S.accnt a) =
          ((v.deals m o).filter fun d => d.maker.accnt = a).map S.deal := by
        rw [List.filter_map]
        exact congrArg (List.map S.deal) (List.filter_congr fun d _ => decide_eq_decide.mpr S.accnt_eq_iff)
      have reports : ((v.deals m o).map S.deal).flatMap (fun d => d.told (S.order o) now) =
          ((v.deals m o).flatMap fun d => d.told o now).map S.exec := by
        rw [List.flatMap_map, List.map_flatMap]
        exact List.flatMap_congr told
      have traded : ∀ d, (S.deal d).traded now = S.order (d.traded now) := fun d => order_trade
      rw [makers, reports, Related.dealt_deals, entered, alike.posn, List.map_map]
      simp only [Symmetry.answer, List.map_cons, List.map_map, Function.comp_def, traded, List.map_eq_nil_iff]
      split <;> rfl


/-! ## Changes alike -/

theorem check_order (change : App.Change) {o : Order} (here : o.marketId = m) :
    (change.check o = none ∧ change.check (S.order o) = none) ∨
      ∃ e e', change.check o = some e ∧ change.check (S.order o) = some e' ∧ S.Errors m e e' := by
  have done : (S.order o).done = o.done := rfl
  have rejected : change.reject (S.order o) = change.reject o := by cases change <;> rfl
  rw [App.Change.check, App.Change.check, done, rejected]
  split
  next => exact .inr ⟨_, _, rfl, rfl, here ▸ .tooLate o.id⟩
  next =>
    cases change.reject o with
    | none => exact .inl ⟨rfl, rfl⟩
    | some e => exact .inr ⟨e, e, rfl, rfl, .same e⟩

theorem changeReports_orders {change : App.Change} {id id' : Int} {os : List Order} (home : ∀ o ∈ os, o.marketId = m)
    (ids : ∀ j, 0 < j → S.id m (id + j) = id' + j) :
    changeReports change now id' (os.map S.order) = (changeReports change now id os).map S.exec := by
  induction os generalizing id id' with
  | nil => rfl
  | cons o os inductionHypothesis =>
    obtain ⟨here, rest⟩ := List.forall_mem_cons.mp home
    have later : ∀ j, 0 < j → S.id m (id + 1 + j) = id' + 1 + j := fun j positive => by
      rw [add_assoc, ids (1 + j) (by omega), add_assoc]
    have made : Exec.make (S.order o) (id' + 1) now = S.exec (.make o (id + 1) now) := by
      rw [← exec_make, here, ids 1 (by omega)]
    rw [List.map_cons, changeReports, changeReports, List.map_cons, inductionHypothesis rest later, made, exec_report]

theorem Related.apply (related : S.Related v w) {change : App.Change} (here : o.marketId = m) :
    S.Related (v.apply m change now o e) (w.apply m change now (S.order o) (S.exec e)) := by
  have amended : S.Related (v.amend m o.side o.id (changed change now)) (w.amend m (S.side o.side) (S.id m o.id) (changed change now)) :=
    related.amend (fun o => order_changed) fun o => (changed_same change now o).1
  have pushed := amended.push (a := o.accnt) (e := e)
  rw [Venue.apply, Venue.apply, show (S.order o).id = S.id m o.id by rw [← here]; rfl]
  exact pushed

theorem Related.applied {xs : List (Order × Exec)} (related : S.Related v w) (home : ∀ x ∈ xs, x.1.marketId = m) :
    S.Related (xs.foldl (fun v x => v.apply m change now x.1 x.2) v)
      (xs.foldl (fun w x => w.apply m change now (S.order x.1) (S.exec x.2)) w) := by
  induction xs generalizing v w with
  | nil => exact related
  | cons x xs inductionHypothesis =>
    obtain ⟨here, rest⟩ := List.forall_mem_cons.mp home
    exact inductionHypothesis (related.apply here) rest

theorem changePlans (related : S.Related v w) {change : App.Change} {os : List Order} (home : ∀ o ∈ os, o.marketId = m) :
    Plans S m (v.changePlan m change now os) (w.changePlan m change now (os.map S.order)) := by
  have reports : changeReports change now (w.maxId m) (os.map S.order) =
      (changeReports change now (v.maxId m) os).map S.exec := changeReports_orders home (related.ids m)
  rw [changePlan, changePlan, reports, List.length_map]
  generalize changeReports change now (v.maxId m) os = es
  refine .post _ (by simp [execMsgs]) (fun v' w' alike => ?_) fun v' w' _ => ?_
  · rw [List.zip_map, List.foldl_map]
    exact alike.applied fun x member => home x.1 (List.of_mem_zip member).1
  · simp [Symmetry.answer, order_changed, Function.comp_def]

theorem stage_related (related : S.Related v w) (distinct : v.Distinct) (ids : List Int) :
    (w.stage (S.accnt a) m change (ids.map (S.id m))).1 = (v.stage a m change ids).1 ∧
      S.Alike m (fun os os' : List Order => os' = os.map S.order) (v.stage a m change ids).2
        (w.stage (S.accnt a) m change (ids.map (S.id m))).2 := by
  induction ids with
  | nil => exact ⟨rfl, .ok rfl⟩
  | cons id ids inductionHypothesis =>
    rw [List.map_cons, stage, stage, related.find distinct]
    cases found : v.find a m id with
    | none => exact ⟨rfl, .error (.orderNotFound id)⟩
    | some o =>
      have here := related.mem_orders_home (List.mem_of_find?_eq_some found)
      rw [Option.map_some]
      obtain ⟨passed, passed'⟩ | ⟨e, e', stopped, stopped', errors⟩ := S.check_order change here
      · obtain ⟨count, later⟩ := inductionHypothesis
        simp only [passed, passed']
        refine ⟨congrArg (· + 1) count, ?_⟩
        generalize (v.stage a m change ids).2 = rest at later
        generalize (w.stage (S.accnt a) m change (ids.map (S.id m))).2 = rest' at later
        cases later with
        | ok same => exact .ok (by rw [same, List.map_cons])
        | error errors => exact .error errors
      · simp only [stopped, stopped']
        exact ⟨trivial, .error errors⟩

theorem idsPlans (related : S.Related v w) (distinct : v.Distinct) :
    Plans S m (v.idsPlan a m change ids now) (w.idsPlan (S.accnt a) m change (ids.map (S.id m)) now) := by
  obtain ⟨count, alike⟩ := @stage_related S v w m a change related distinct ids
  rw [idsPlan, idsPlan]
  cases staged : v.stage a m change ids with
  | mk n result =>
    cases staged' : w.stage (S.accnt a) m change (ids.map (S.id m)) with
    | mk n' result' =>
      rw [staged, staged'] at alike
      obtain rfl : n' = n := by simpa [staged, staged'] using count
      cases alike with
      | ok same =>
        subst same
        exact changePlans related fun o member => related.mem_orders_home (mem_stage staged o member)
      | error errors => exact .refuse errors _

theorem refPlans (related : S.Related v w) (distinct : v.Distinct) :
    Plans S m (v.refPlan a m change ref now) (w.refPlan (S.accnt a) m change ref now) := by
  rw [refPlan, refPlan, related.findRef distinct]
  cases found : v.findRef a m ref with
  | none => exact .refuse (.same _) 0
  | some o =>
    have here := related.mem_orders_home (List.mem_of_find?_eq_some found)
    rw [Option.map_some]
    obtain ⟨passed, passed'⟩ | ⟨e, e', stopped, stopped', errors⟩ := S.check_order change here
    · simp only [passed, passed']
      have home : ∀ o' ∈ [o], o'.marketId = m := by simpa using here
      exact changePlans related home
    · simp only [stopped, stopped']
      exact .refuse errors 0

/-! ## Trades alike -/

theorem tradePlans (related : S.Related v w) :
    Plans S m (v.tradePlan a m terms ref side lots ticks liqInd cpty created)
      (w.tradePlan (S.accnt a) m terms ref (S.side side) lots (S.price ticks) liqInd (S.accnt cpty) created) := by
  have first := related.ids m 1 (by omega)
  have second := related.ids m 2 (by omega)
  obtain ⟨trade, made⟩ : ∃ trade, trade = Exec.makeManual m terms.1 terms.2.1 (v.maxId m + 1) a ref side lots ticks
    (v.posn a m).netLots (v.posn a m).netCost liqInd cpty created := ⟨_, rfl⟩
  obtain ⟨trade', made'⟩ : ∃ trade', trade' = Exec.makeManual m terms.1 terms.2.1 (w.maxId m + 1) (S.accnt a) ref (S.side side) lots
    (S.price ticks) (w.posn (S.accnt a) m).netLots (w.posn (S.accnt a) m).netCost liqInd (S.accnt cpty) created := ⟨_, rfl⟩
  have own : trade'.posn 0 0 = S.exec (trade.posn 0 0) := by
    rw [made, made', ← first]
    exact posn_manual
  have other : (trade'.opposite (w.maxId m + 2)).posn 0 0 = S.exec ((trade.opposite (v.maxId m + 2)).posn 0 0) := by
    have here : S.id m (v.maxId m + 2) = S.id (trade.posn 0 0).marketId (v.maxId m + 2) := by rw [made]; rfl
    have opposite : (trade'.posn 0 0).opposite (S.id m (v.maxId m + 2)) = S.exec ((trade.posn 0 0).opposite (v.maxId m + 2)) := by
      rw [own, here, exec_opposite]
    rw [← second]
    exact opposite
  rw [tradePlan, tradePlan, S.isEmpty_accnt]
  simp only [← made, ← made', own, other]
  by_cases alone : cpty.isEmpty = true
  · rw [if_pos alone, if_pos alone]
    exact .post 1 rfl (fun _ _ alike => alike.file) fun _ _ _ => rfl
  · rw [if_neg alone, if_neg alone]
    exact .post 2 rfl (fun _ _ alike => alike.file.file) fun _ _ _ => rfl

theorem Related.unfile (related : S.Related v w) :
    S.Related (v.unfile a m ids) (w.unfile (S.accnt a) m (ids.map (S.id m))) where
  __ := related
  trades b n id := by
    have listed : idKey n (S.id n id) ∈ (ids.map (S.id m)).map (idKey m) ↔ idKey n id ∈ ids.map (idKey m) := by
      simp only [List.mem_map, idKey_inj]
      constructor
      · rintro ⟨_, ⟨i, member, rfl⟩, rfl, same⟩
        exact ⟨i, member, rfl, S.id_injective _ same⟩
      · rintro ⟨i, member, rfl, rfl⟩
        exact ⟨_, ⟨i, member, rfl⟩, rfl, rfl⟩
    simp only [Venue.unfile, update_apply, accnt_eq_iff]
    split
    next =>
      simp only [listed]
      split
      next => rfl
      next => exact related.trades a n id
    next => exact related.trades b n id

theorem archivePlans (related : S.Related v w) :
    Plans S m (v.archivePlan a m ids now) (w.archivePlan (S.accnt a) m (ids.map (S.id m)) now) := by
  have missing : (ids.map (S.id m)).find? (fun id => (w.trades (S.accnt a) (idKey m id)).isNone) =
      (ids.find? fun id => (v.trades a (idKey m id)).isNone).map (S.id m) := by
    rw [List.find?_map]
    simp only [Function.comp_def, related.trades, Option.isNone_map]
  rw [archivePlan, archivePlan, missing]
  cases ids.find? fun id => (v.trades a (idKey m id)).isNone with
  | some id => exact .refuse (.tradeNotFound id) 0
  | none =>
    refine .post 0 ?_ (fun _ _ alike => alike.unfile) fun _ _ _ => rfl
    rw [MsgQueue.length_archiveMsgs, MsgQueue.length_archiveMsgs, List.length_map]

/-! ## Markets alike -/

theorem Related.setTerms (related : S.Related v w) : S.Related (v.setTerms m terms) (w.setTerms m terms) where
  __ := related
  terms := by rw [Venue.setTerms, Venue.setTerms, related.terms]

theorem createMarketPlans (related : S.Related v w) {instr : Symbol} {settlDay : Int} {state : Nat} :
    Plans S m (v.createMarketPlan m instr settlDay state busDay) (w.createMarketPlan m instr settlDay state busDay) := by
  rw [createMarketPlan, createMarketPlan, related.terms]
  split
  next => exact .refuse (.same _) 0
  next =>
    split
    next => exact .refuse (.same _) 0
    next => exact .post 0 rfl (fun _ _ alike => alike.setTerms) fun _ _ _ => rfl

theorem updateMarketPlans {state : Nat} : Plans S m (updateMarketPlan m terms state) (updateMarketPlan m terms state) :=
  .post 0 rfl (fun _ _ alike => alike.setTerms) fun _ _ _ => rfl

theorem marketPlans (related : S.Related v w) {plan plan' : Symbol × Int × Nat → Plan}
    (each : ∀ terms, Plans S m (plan terms) (plan' terms)) : Plans S m (v.marketPlan m plan) (w.marketPlan m plan') := by
  rw [marketPlan, marketPlan, related.terms]
  cases v.terms m with
  | none => exact .refuse (.same _) 0
  | some terms => exact each terms

/-! ## Calls alike -/

variable {c : Call} {plan plan' : Plan}


theorem market_call : (S.call c).market = c.market := by cases c <;> rfl

theorem Related.soundAlike (related : S.Related v w) : w.mq.Sound := by
  have sound := related.sound
  rw [MsgQueue.Sound, related.posted, related.popped]
  exact sound

theorem Related.pop (related : S.Related v w) : S.Related { v with mq := v.mq.pop } { w with mq := w.mq.pop } := by
  have popped : ∀ mq : MsgQueue, mq.pop.capacity = mq.capacity ∧ mq.pop.posted = mq.posted ∧
      mq.pop.popped = if mq.popped < mq.posted.length then mq.popped + 1 else mq.popped := by
    intro mq
    rw [MsgQueue.pop]
    split <;> exact ⟨rfl, rfl, rfl⟩
  obtain ⟨capacity, posted, left⟩ := popped v.mq
  obtain ⟨capacity', posted', left'⟩ := popped w.mq
  refine related.setMq ?_ ?_ ?_ related.sound.pop
  · rw [capacity, capacity', related.capacity]
  · rw [posted, posted', related.posted]
  · rw [left, left', related.popped, related.posted]

theorem plans (related : S.Related v w) (distinct : v.Distinct) (names : c.market = some m) (planned : c.plan v = some plan)
    (planned' : (S.call c).plan w = some plan') : Plans S m plan plan' := by
  cases c with
  | sess => cases names
  | pop => cases names
  | createMarket =>
    obtain rfl := Option.some.inj names
    obtain rfl := Option.some.inj planned
    obtain rfl := Option.some.inj planned'
    exact createMarketPlans related
  | updateMarket =>
    obtain rfl := Option.some.inj names
    obtain rfl := Option.some.inj planned
    obtain rfl := Option.some.inj planned'
    exact marketPlans related fun _ => updateMarketPlans
  | createOrder =>
    obtain rfl := Option.some.inj names
    obtain rfl := Option.some.inj planned
    obtain rfl := Option.some.inj planned'
    exact marketPlans related fun _ => orderPlans related distinct
  | changeOrder a n change target now =>
    obtain rfl := Option.some.inj names
    cases target with
    | id =>
      obtain rfl := Option.some.inj planned
      obtain rfl := Option.some.inj planned'
      exact marketPlans related fun _ => idsPlans related distinct
    | ref =>
      obtain rfl := Option.some.inj planned
      obtain rfl := Option.some.inj planned'
      exact marketPlans related fun _ => refPlans related distinct
    | ids =>
      obtain rfl := Option.some.inj planned
      obtain rfl := Option.some.inj planned'
      exact marketPlans related fun _ => idsPlans related distinct
  | createTrade =>
    obtain rfl := Option.some.inj names
    obtain rfl := Option.some.inj planned
    obtain rfl := Option.some.inj planned'
    exact marketPlans related fun _ => tradePlans related
  | archiveTrade =>
    obtain rfl := Option.some.inj names
    obtain rfl := Option.some.inj planned
    obtain rfl := Option.some.inj planned'
    exact archivePlans related
  | archiveTrades =>
    obtain rfl := Option.some.inj names
    obtain rfl := Option.some.inj planned
    obtain rfl := Option.some.inj planned'
    exact archivePlans related

/-- Every call answers alike, and leaves venues alike. -/
theorem call_related (related : S.Related v w) (distinct : v.Distinct) (c : Call) :
    S.Answers (c.market.getD 0) (v.call c).1 (w.call (S.call c)).1 ∧ S.Related (v.call c).2 (w.call (S.call c)).2 := by
  cases names : c.market with
  | none =>
    cases c with
    | sess => exact ⟨.ok rfl, related⟩
    | pop => exact ⟨.ok rfl, related.pop⟩
    | _ => cases names
  | some m =>
    obtain ⟨plan, planned, carried⟩ := call_carried related.sound names
    obtain ⟨plan', planned', carried'⟩ := call_carried related.soundAlike (market_call.trans names)
    rw [carried, carried']
    exact (plans related distinct names planned planned').carryOut related

theorem proper_call (related : S.Related v w) (distinct : v.Distinct) (proper : c.Proper v) : (S.call c).Proper w := by
  cases c with
  | createOrder => exact proper
  | changeOrder a m change target now =>
    cases target with
    | id => trivial
    | ref ref =>
      intro n elsewhere
      rw [related.findRef distinct, proper n elsewhere]
      rfl
    | ids => exact proper.map (S.id_injective m)
  | archiveTrades a m => exact proper.map (S.id_injective m)
  | _ => trivial

end Symmetry

end Venue

namespace App

variable {app : App} {c : Venue.Call} {cs : List Venue.Call} {w : Venue} {S : Venue.Symmetry}

/-- The engine never holds two orders of an account in a market that share an id or a reference. -/
theorem distinct_venue (inv : app.Inv) (filed : app.view.RefsFiled) : app.venue.Distinct := by
  intro m o member o' member' accnt shared
  rw [venue, View.orders_venue] at member member'
  obtain ⟨p, listed, rfl⟩ := List.mem_map.mp member
  obtain ⟨q, listed', rfl⟩ := List.mem_map.mp member'
  obtain ⟨s, inside⟩ := View.mem_pointers.mp listed
  obtain ⟨t, inside'⟩ := View.mem_pointers.mp listed'
  have one : p = q := by
    cases shared with
    | inl id =>
      refine inv.ids.unique p q (inv.live.present inside) (inv.live.present inside') (idKey_inj.mpr ⟨?_, id⟩)
      exact (inv.live.home inside).1.trans (inv.live.home inside').1.symm
    | inr ref =>
      have found := filed m s p inside ref.2
      have found' := filed m t q inside' fun empty => ref.2 (ref.1.trans empty)
      rw [show (app.view.heap.order q).accnt = (app.view.heap.order p).accnt from accnt.symm,
        show (app.view.heap.order q).ref.data = (app.view.heap.order p).ref.data from ref.1.symm, found] at found'
      exact Option.some.inj found'
  rw [one]

/-- The calls under the symmetry are answered alike, to the last one. -/
theorem run_related (settled : app.Settled) (filed : app.view.RefsFiled) (proper : app.venue.Proper cs)
    (related : S.Related app.venue w) : w.Proper (cs.map S.call) ∧
      List.Forall₂ (fun x out => S.Answers (x.1.market.getD 0) x.2 out) (cs.zip (app.venue.run cs).1) (w.run (cs.map S.call)).1 ∧
      S.Related (app.venue.run cs).2 (w.run (cs.map S.call)).2 := by
  induction cs generalizing app w with
  | nil => exact ⟨trivial, .nil, related⟩
  | cons c cs inductionHypothesis =>
    obtain ⟨properFirst, properRest⟩ := proper
    have distinct := distinct_venue settled.inv filed
    obtain ⟨answers, next⟩ := Venue.Symmetry.call_related related distinct c
    obtain ⟨app', stepped, venue⟩ := step_seen settled filed properFirst
    rw [← venue] at properRest next
    obtain ⟨properLater, answersLater, last⟩ :=
      inductionHypothesis (settled.step stepped) (refsFiled_call settled filed properFirst stepped) properRest next
    rw [venue] at answersLater last
    exact ⟨⟨Venue.Symmetry.proper_call related distinct properFirst, properLater⟩, .cons answers answersLater, last⟩

end App

namespace Venue

namespace Symmetry

variable {S : Symmetry} {m : Int} {cs : List Call} {outs outs' : List (Except Exception Answer)}

/-- Where the ids are kept, so are the errors. -/
theorem Answers.eq_map (plain : ∀ m i, S.id m i = i) {out out' : Except Exception Answer} (answers : S.Answers m out out') :
    out' = out.map S.answer := by
  cases answers with
  | ok same =>
    rw [same]
    rfl
  | error errors =>
    cases errors with
    | same => rfl
    | _ => rw [plain]; rfl

theorem outs_eq_map (plain : ∀ m i, S.id m i = i) (length : cs.length = outs.length)
    (answers : List.Forall₂ (fun x out => S.Answers (x.1.market.getD 0) x.2 out) (cs.zip outs) outs') :
    outs' = outs.map (Except.map S.answer) := by
  induction cs generalizing outs outs' with
  | nil =>
    obtain rfl := List.length_eq_zero_iff.mp length.symm
    cases answers
    rfl
  | cons c cs inductionHypothesis =>
    cases outs with
    | nil => cases length
    | cons out outs =>
      cases answers with
      | cons first rest => rw [first.eq_map plain, inductionHypothesis (Nat.succ.inj length) rest, List.map_cons]

theorem related_make (plain : ∀ m i, S.id m i = i) (capacity maxExecs : Nat) :
    S.Related (.make capacity maxExecs) (.make capacity maxExecs) where
  capacity := rfl
  posted := rfl
  popped := rfl
  sound := le_rfl
  maxExecs := rfl
  terms := rfl
  ids m j _ := plain m _
  last m := by simp [make]
  book m s := rfl
  home m s o member := by cases member
  history a := rfl
  trades a m id := rfl
  posn a m := posn_make.symm

end Symmetry

theorem length_run {v : Venue} {cs : List Call} : (v.run cs).1.length = cs.length := by
  induction cs generalizing v with
  | nil => rfl
  | cons c cs inductionHypothesis => rw [run, List.length_cons, List.length_cons, inductionHypothesis]

end Venue

namespace App

variable {capacity maxExecs : Nat} {app : App} {cs : List Venue.Call} {outs : List (Except Exception Venue.Answer)}

/-- The answers to the calls of renamed accounts, on the sides for the prices of a mirrored exchange, are the answers renamed and
mirrored. -/
theorem answers_symmetric (S : Venue.Symmetry) (plain : ∀ m i, S.id m i = i) (proper : (Venue.make capacity maxExecs).Proper cs)
    (answers : (App.make capacity maxExecs).answers cs = some (outs, app)) :
    ∃ app', (App.make capacity maxExecs).answers (cs.map S.call) = some (outs.map (Except.map S.answer), app') ∧
      S.Related app.venue app'.venue := by
  have start : (App.make capacity maxExecs).venue = .make capacity maxExecs := venue_make capacity maxExecs
  have settled := Settled.make capacity maxExecs
  have filed := refsFiled_make capacity maxExecs
  rw [← start] at proper
  obtain ⟨last, run, venue⟩ := answers_seen settled filed proper
  obtain ⟨rfl, rfl⟩ : ((App.make capacity maxExecs).venue.run cs).1 = outs ∧ last = app := by
    rw [answers] at run
    simpa [eq_comm] using run
  have related : S.Related (App.make capacity maxExecs).venue (App.make capacity maxExecs).venue := by
    rw [start]
    exact Venue.Symmetry.related_make plain capacity maxExecs
  obtain ⟨properAlike, alike, relatedLast⟩ := run_related settled filed proper related
  obtain ⟨app', run', venue'⟩ := answers_seen settled filed properAlike
  rw [← Venue.Symmetry.outs_eq_map plain Venue.length_run.symm alike, venue]
  exact ⟨app', run', venue' ▸ relatedLast⟩

/-- Two accounts trade places, and what one sold the other one buys. -/
theorem answers_symmetric_swap :
    let a : Symbol := .assign (bytes "MARAYL")
    let b : Symbol := .assign (bytes "GOSAYL")
    let m := toMarketId 1 0
    let cs : List Venue.Call := [.createMarket 1 (.assign (bytes "EURUSD")) 0 0 0, .createOrder a m (bytes "apple") .sell 10 5 0 2 0,
      .createOrder b m [] .buy 12 6 0 3 0, .changeOrder b m .cancel (.ids [2]) 4, .createTrade a m [] .buy 1 5 .none b 5]
    let ds : List Venue.Call := [.createMarket 1 (.assign (bytes "EURUSD")) 0 0 0, .createOrder b m (bytes "apple") .buy 10 (-5) 0 2 0,
      .createOrder a m [] .sell 12 (-6) 0 3 0, .changeOrder a m .cancel (.ids [2]) 4, .createTrade b m [] .sell 1 (-5) .none a 5]
    ∃ (S : Venue.Symmetry) (outs : _) (app app' : App), cs.map S.call = ds ∧ (App.make 16 16).answers cs = some (outs, app) ∧
      (App.make 16 16).answers ds = some (outs.map (Except.map S.answer), app') ∧ S.Related app.venue app'.venue := by
  intro a b m cs ds
  have isEmpty : ∀ x, (Equiv.swap a b x).isEmpty = x.isEmpty := by
    intro x
    rw [Equiv.swap_apply_def]
    split
    next here => rw [here]; decide
    next =>
      split
      next here => rw [here]; decide
      next => rfl
  have default : Equiv.swap a b default = default := Equiv.swap_apply_of_ne_of_ne (by decide) (by decide)
  obtain ⟨S, accnt, id, mirrored⟩ :
      ∃ S : Venue.Symmetry, S.accnt = Equiv.swap a b ∧ (∀ m i, S.id m i = i) ∧ S.mirrored = true :=
    ⟨⟨Equiv.swap a b, fun _ i => i, true, (Equiv.swap a b).injective, default, isEmpty, fun _ => injective_id, fun _ => rfl⟩,
      rfl, fun _ _ => rfl, rfl⟩
  have apple : (bytes "apple").length ≤ maxRef := by decide
  have same : cs.map S.call = ds := by
    have sold : S.side .sell = .buy ∧ S.side .buy = .sell := by simp [Venue.Symmetry.side, mirrored, Side.opposite]
    have paid : ∀ t, S.price t = -t := by simp [Venue.Symmetry.price, mirrored]
    simp [cs, ds, Venue.Symmetry.call, Venue.Symmetry.target, accnt, id, sold, paid]
  obtain ⟨x, answers⟩ : ∃ x, (App.make 16 16).answers cs = some x := Option.isSome_iff_exists.mp (by decide +kernel)
  have proper : (Venue.make 16 16).Proper cs := ⟨trivial, apple, Nat.zero_le _, List.nodup_singleton _, trivial, trivial⟩
  obtain ⟨app', answersAlike, related⟩ := answers_symmetric S id proper answers
  exact ⟨S, x.1, x.2, app', same, answers, same ▸ answersAlike, related⟩

end App

end Swirly
