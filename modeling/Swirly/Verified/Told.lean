import Swirly.Verified.App.Replay
import Swirly.Verified.Recorded

/-!
# What a caller is told

The response of `create_order` is filled in the match phase, before the commit loop files a single trade.
-/

namespace Swirly

open Function

/-- The ids of a list are distinct. -/
def Target.Distinct : Target → Prop
  | .ids all => all.Nodup
  | .id _ | .ref _ => True

/-- The operation asks for a response on behalf of the account, in the market. -/
def Op.Asks (a : Symbol) (m : Int) : Op → Prop
  | createOrder b n .. => b = a ∧ n = m
  | changeOrder b n _ target _ => b = a ∧ n = m ∧ target.Distinct
  | _ => False

namespace Fill

variable {h : Heap} {a : Symbol}

/-- The trades of a match that belong to the caller. -/
def told (h : Heap) (a : Symbol) (f : Fill) : List ExecPtr :=
  if (h.order f.maker).accnt = a then f.trades else [f.makerTrade + 1]

/-- The makers that belong to the caller. -/
def ownMakers (h : Heap) (a : Symbol) (fs : List Fill) : List OrderPtr :=
  (fs.map Fill.maker).filter fun q => (h.order q).accnt = a

theorem foldl_respond (h : Heap) (a : Symbol) (fs : List Fill) (resp : Response) :
    fs.foldl (fun resp f => f.respond h a resp) resp =
      { resp with orders := resp.orders ++ ownMakers h a fs, execs := resp.execs ++ fs.flatMap (told h a) } := by
  induction fs generalizing resp with
  | nil => simp [ownMakers]
  | cons f fs inductionHypothesis =>
    rw [List.foldl_cons, inductionHypothesis]
    by_cases own : (h.order f.maker).accnt = a
    · simp [respond, told, ownMakers, own, Response.insertOrder, Response.insertExec, trades]
    · simp [respond, told, ownMakers, own, Response.insertExec]

end Fill

namespace App

variable {app app' : App} {a : Symbol} {m now : Int} {o : Order} {resp : Response}

theorem createdResponse_eq (app : App) (a : Symbol) (m : Int) (fs : List Fill) :
    createdResponse app a m fs =
      { market := some m
        orders := app.heap.orders.fresh :: Fill.ownMakers app.heap a fs
        execs := app.execs.fresh :: fs.flatMap (Fill.told app.heap a)
        posn := if fs = [] then none else some (a, m) } := by
  rw [createdResponse, Fill.foldl_respond]
  split
  next => rfl
  next => rfl

/-- The response tells of the caller's part in a call, and of nothing else. -/
structure Tells (app : App) (a : Symbol) (m : Int) (resp : Response) (app' : App) : Prop where
  /-- The executions of the caller, in the order in which the call made them. -/
  execs : resp.execs = (app.newAddresses (app'.execs.fresh - app.execs.fresh)).filter fun e => (app'.exec e).accnt = a
  history : (app'.sess a).execs = pushAll app.maxExecs (app.sess a).execs resp.execs
  makerFirst : ∀ e ∈ resp.execs, (app'.exec e).state = .trade → (app'.exec e).cpty = a →
    ∃ before after maker taker, resp.execs = before ++ maker :: taker :: after ∧ (e = maker ∨ e = taker) ∧
      (app'.exec maker).liqInd = .maker ∧ (app'.exec taker).liqInd = .taker ∧
      (app'.exec maker).id = (app'.exec taker).matchId ∧ (app'.exec taker).id = (app'.exec maker).matchId
  nodup : resp.orders.Nodup
  orders : ∀ p, p ∈ resp.orders ↔ (app'.heap.orders.find p).isSome ∧ (app'.order p).accnt = a ∧
    ∃ e ∈ resp.execs, (app'.exec e).Reports (app'.order p)
  /-- The other orders of the caller were there before, and are as they were. -/
  others : ∀ p, (app'.heap.orders.find p).isSome → (app'.order p).accnt = a → p ∉ resp.orders →
    app.heap.orders.find p = app'.heap.orders.find p
  posn : resp.posn = if resp.execs.any fun e => (app'.exec e).state = .trade then some (a, m) else none

theorem Filed.made {news : List Exec} {es : List ExecPtr} (filed : Filed app app' news es) :
    app.newAddresses (app'.execs.fresh - app.execs.fresh) = app.newAddresses news.length := by
  rw [filed.fresh, Nat.add_sub_cancel_left]

section Create

variable {fs : List Fill} {v : View}

/-- Where the reports of a new order and of its matches are. -/
structure Located (app : App) (o : Order) (now : Int) (fs : List Fill) (app' : App) : Prop where
  first : ∃ lots cost, app'.exec app.execs.fresh = (Exec.make o o.id now).posn lots cost
  maker : ∀ f ∈ fs, ∃ lots cost, app'.exec f.makerTrade = (f.makerExec app.heap o now).posn lots cost
  taker : ∀ f ∈ fs, ∃ lots cost, app'.exec (f.makerTrade + 1) = (f.takerExec app.heap o now).posn lots cost

theorem Filed.located {es : List ExecPtr} (filed : Filed app app' (newReports app o now (app.incomingFills m o)) es) :
    Located app o now (app.incomingFills m o) app' := by
  obtain ⟨first, trades⟩ := exec_newReports app m o now rfl
  refine ⟨?_, fun f member => ?_, fun f member => ?_⟩
  · rw [← first]
    exact filed.exec _
  · rw [← (trades f member).1]
    exact filed.exec _
  · rw [← (trades f member).2]
    exact filed.exec _

namespace Located

variable (located : Located app o now fs app')
include located

/-- The caller's part of the reports. -/
theorem filter_trades (new : o.accnt = a) :
    (fs.flatMap Fill.trades).filter (fun e => (app'.exec e).accnt = a) = fs.flatMap (Fill.told app.heap a) := by
  rw [List.filter_flatMap]
  refine List.flatMap_congr fun f member => ?_
  obtain ⟨_, _, maker⟩ := located.maker f member
  obtain ⟨_, _, taker⟩ := located.taker f member
  have taken : (app'.exec (f.makerTrade + 1)).accnt = a := by rw [taker]; exact new
  have given : (app'.exec f.makerTrade).accnt = (app.heap.order f.maker).accnt := by rw [maker]; rfl
  rw [Fill.told, Fill.trades]
  by_cases own : (app.heap.order f.maker).accnt = a
  · rw [if_pos own, List.filter_cons_of_pos (by simp [given, own]), List.filter_cons_of_pos (by simp [taken])]
    rfl
  · rw [if_neg own, List.filter_cons_of_neg (by simp [given, own]), List.filter_cons_of_pos (by simp [taken])]
    rfl

/-- The executions of a match with an own order stand side by side. -/
theorem makerFirst (state : o.state = .new) {e : ExecPtr} (member : e ∈ app.execs.fresh :: fs.flatMap (Fill.told app.heap a))
    (trade : (app'.exec e).state = .trade) (cpty : (app'.exec e).cpty = a) :
    ∃ before after maker taker, app.execs.fresh :: fs.flatMap (Fill.told app.heap a) = before ++ maker :: taker :: after ∧
      (e = maker ∨ e = taker) ∧ (app'.exec maker).liqInd = .maker ∧ (app'.exec taker).liqInd = .taker ∧
      (app'.exec maker).id = (app'.exec taker).matchId ∧ (app'.exec taker).id = (app'.exec maker).matchId := by
  cases List.mem_cons.mp member with
  | inl first =>
    obtain ⟨_, _, made⟩ := located.first
    rw [first, made] at trade
    exact absurd (state.symm.trans trade) nofun
  | inr later =>
    obtain ⟨f, inside, here⟩ := List.mem_flatMap.mp later
    obtain ⟨_, _, maker⟩ := located.maker f inside
    obtain ⟨_, _, taker⟩ := located.taker f inside
    have own : (app.heap.order f.maker).accnt = a := by
      by_contra other
      rw [Fill.told, if_neg other, List.mem_singleton] at here
      rw [here, taker] at cpty
      exact other cpty
    obtain ⟨before, after, split⟩ := List.append_of_mem inside
    refine ⟨app.execs.fresh :: before.flatMap (Fill.told app.heap a), after.flatMap (Fill.told app.heap a), f.makerTrade,
      f.makerTrade + 1, ?_, ?_, ?_, ?_, ?_, ?_⟩
    · rw [split, List.flatMap_append, List.flatMap_cons, Fill.told, if_pos own]
      rfl
    · rw [Fill.told, if_pos own] at here
      exact List.mem_pair.mp here
    · rw [maker]; rfl
    · rw [taker]; rfl
    · rw [maker, taker]; rfl
    · rw [maker, taker]; rfl

end Located

/-- What becomes of the orders. -/
structure Moved (app : App) (o : Order) (fs : List Fill) (app' : App) : Prop where
  kept : Heap.Kept (app.heap.newOrder o) app'.heap
  others : ∀ q, q ≠ app.heap.orders.fresh → q ∉ fs.map Fill.maker → app'.order q = app.order q

theorem Opened.moved {s : Side} (opened : Opened app a m o now fs v)
    (commits : Commits a m s now (fs.map fun f => f.toMatch app.heap m) v app'.view) : Moved app o fs app' where
  kept := opened.placed.kept.trans commits.kept
  others q differ apart := by
    have unmatched : q ∉ (fs.map fun f => f.toMatch app.heap m).map Match.makerOrder := by
      rw [List.map_map]
      exact apart
    have same : app'.heap.order q = v.heap.order q := commits.order_ne unmatched
    exact same.trans (opened.placed.order_ne differ)

namespace Moved

variable (moved : Moved app o fs app')
include moved

theorem fresh : (app'.heap.orders.find app.heap.orders.fresh).isSome ∧ (app'.order app.heap.orders.fresh).Same o := by
  have same := moved.kept.same app.heap.orders.fresh
  rw [Heap.order_newOrder_self] at same
  refine ⟨?_, same⟩
  rw [moved.kept.live, Heap.find_newOrder, if_pos rfl]
  rfl

theorem old {q : OrderPtr} (differ : q ≠ app.heap.orders.fresh) :
    (app'.heap.orders.find q).isSome = (app.heap.orders.find q).isSome ∧ (app'.order q).Same (app.order q) := by
  have same := moved.kept.same q
  rw [Heap.order_newOrder_ne _ _ differ] at same
  refine ⟨?_, same⟩
  rw [moved.kept.live, Heap.find_newOrder, if_neg differ]

/-- The caller is told of the new order and of its own makers. -/
theorem orders (inv : app'.Inv) (located : Located app o now fs app') (new : o.accnt = a)
    (makers : ∀ f ∈ fs, (app.heap.orders.find f.maker).isSome) (p : OrderPtr) :
    p ∈ app.heap.orders.fresh :: Fill.ownMakers app.heap a fs ↔ (app'.heap.orders.find p).isSome ∧ (app'.order p).accnt = a ∧
      ∃ e ∈ app.execs.fresh :: fs.flatMap (Fill.told app.heap a), (app'.exec e).Reports (app'.order p) := by
  obtain ⟨present, same⟩ := moved.fresh
  have reportsNew : (app'.exec app.execs.fresh).Reports (app'.order app.heap.orders.fresh) := by
    obtain ⟨_, _, made⟩ := located.first
    rw [made]
    exact ⟨same.marketId.symm, same.id.symm⟩
  have reportsTaker : ∀ f ∈ fs, (app'.exec (f.makerTrade + 1)).Reports (app'.order app.heap.orders.fresh) := by
    intro f member
    obtain ⟨_, _, made⟩ := located.taker f member
    rw [made]
    exact ⟨same.marketId.symm, same.id.symm⟩
  have booked : ∀ f ∈ fs, (app'.heap.orders.find f.maker).isSome ∧ (app'.order f.maker).Same (app.order f.maker) := by
    intro f member
    obtain ⟨live, same⟩ := moved.old (OrdMap.ne_fresh (makers f member))
    exact ⟨live.trans (makers f member), same⟩
  have reportsMaker : ∀ f ∈ fs, (app'.exec f.makerTrade).Reports (app'.order f.maker) := by
    intro f member
    obtain ⟨_, _, made⟩ := located.maker f member
    rw [made]
    exact ⟨(booked f member).2.marketId.symm, (booked f member).2.id.symm⟩
  constructor
  · intro listed
    cases List.mem_cons.mp listed with
    | inl here =>
      rw [here]
      exact ⟨present, same.accnt.trans new, _, List.mem_cons_self, reportsNew⟩
    | inr maker =>
      obtain ⟨matched, own⟩ := List.mem_filter.mp maker
      obtain ⟨f, member, rfl⟩ := List.mem_map.mp matched
      have own : (app.heap.order f.maker).accnt = a := of_decide_eq_true own
      refine ⟨(booked f member).1, (booked f member).2.accnt.trans own, f.makerTrade, ?_, reportsMaker f member⟩
      refine List.mem_cons_of_mem _ (List.mem_flatMap.mpr ⟨f, member, ?_⟩)
      rw [Fill.told, if_pos own]
      exact List.mem_cons_self
  · intro told
    obtain ⟨presentP, -, e, listed, reports⟩ := told
    cases List.mem_cons.mp listed with
    | inl here =>
      rw [inv.ids.reports presentP present reports (here ▸ reportsNew)]
      exact List.mem_cons_self
    | inr later =>
      obtain ⟨f, member, here⟩ := List.mem_flatMap.mp later
      rw [Fill.told] at here
      by_cases own : (app.heap.order f.maker).accnt = a
      · rw [if_pos own] at here
        cases List.mem_pair.mp here with
        | inl maker =>
          rw [inv.ids.reports presentP (booked f member).1 reports (maker ▸ reportsMaker f member)]
          exact List.mem_cons_of_mem _ (List.mem_filter.mpr ⟨List.mem_map_of_mem member, decide_eq_true own⟩)
        | inr taker =>
          rw [inv.ids.reports presentP present reports (taker ▸ reportsTaker f member)]
          exact List.mem_cons_self
      · rw [if_neg own, List.mem_singleton] at here
        rw [inv.ids.reports presentP present reports (here ▸ reportsTaker f member)]
        exact List.mem_cons_self

/-- The caller's other orders have not changed. -/
theorem unlisted {p : OrderPtr} (present : (app'.heap.orders.find p).isSome) (own : (app'.order p).accnt = a)
    (unlisted : p ∉ app.heap.orders.fresh :: Fill.ownMakers app.heap a fs) :
    app.heap.orders.find p = app'.heap.orders.find p := by
  obtain ⟨differ, foreign⟩ := List.ne_and_not_mem_of_not_mem_cons unlisted
  obtain ⟨live, same⟩ := moved.old differ
  have unmatched : p ∉ fs.map Fill.maker := fun matched =>
    foreign (List.mem_filter.mpr ⟨matched, decide_eq_true (same.accnt.symm.trans own)⟩)
  rw [OrdMap.find_eq_some_get present, OrdMap.find_eq_some_get (live ▸ present)]
  exact congrArg some (moved.others p differ unmatched).symm

end Moved

/-- A new order and its matches. -/
theorem created_tells (inv : app.Inv) (inv' : app'.Inv) {s : Side} (new : New app a m o) (state : o.state = .new)
    (opened : Opened app a m o now (app.incomingFills m o) v)
    (commits : Commits a m s now ((app.incomingFills m o).map fun f => f.toMatch app.heap m) v app'.view)
    (filed : Filed app app' (newReports app o now (app.incomingFills m o))
      (app.newAddresses (newReports app o now (app.incomingFills m o)).length)) :
    Tells app a m (createdResponse app a m (app.incomingFills m o)) app' := by
  have located := filed.located
  have moved := opened.moved commits
  have made := filed.made
  rw [incoming_trades] at made
  have own : (app'.exec app.execs.fresh).accnt = a := by
    obtain ⟨_, _, made⟩ := located.first
    rw [made]
    exact new.accnt
  have listed : (app.execs.fresh :: (app.incomingFills m o).flatMap Fill.trades).filter (fun e => (app'.exec e).accnt = a) =
      app.execs.fresh :: (app.incomingFills m o).flatMap (Fill.told app.heap a) := by
    rw [List.filter_cons_of_pos (by exact decide_eq_true own), located.filter_trades new.accnt]
  have makers : ∀ f ∈ app.incomingFills m o, (app.heap.orders.find f.maker).isSome :=
    fun f member => inv.live.present (mem_fillsOf member).1
  rw [createdResponse_eq]
  exact
    { execs := by rw [made, listed]
      history := by
        have history := filed.history a
        rw [incoming_trades, listed] at history
        exact history
      makerFirst := fun e member trade cpty => located.makerFirst state member trade cpty
      nodup := by
        refine List.nodup_cons.mpr ⟨fun member => ?_, ?_⟩
        · obtain ⟨f, inside, here⟩ := List.mem_map.mp (List.mem_filter.mp member).1
          exact OrdMap.ne_fresh (makers f inside) here
        · exact (fillsOf_nodup (inv.live.wf m _).nodup).filter _
      orders := moved.orders inv' located new.accnt makers
      others := fun p present own unlisted => moved.unlisted present own unlisted
      posn := by
        obtain ⟨_, _, first⟩ := located.first
        cases fills : app.incomingFills m o with
        | nil =>
          rw [if_pos rfl, if_neg]
          simp [first, Exec.make, Exec.posn, state]
        | cons f fs =>
          obtain ⟨_, _, taker⟩ := located.taker f (by rw [fills]; exact List.mem_cons_self)
          have told : f.makerTrade + 1 ∈ app.execs.fresh :: (f :: fs).flatMap (Fill.told app.heap a) := by
            refine List.mem_cons_of_mem _ (List.mem_flatMap.mpr ⟨f, List.mem_cons_self, ?_⟩)
            rw [Fill.told]
            split
            next => simp [Fill.trades]
            next => simp
          rw [if_neg (List.cons_ne_nil f fs), if_pos]
          refine List.any_eq_true.mpr ⟨_, told, decide_eq_true ?_⟩
          rw [taker]
          rfl }

end Create

section Change

variable {change : Change} {ps : List OrderPtr} {mq : MsgQueue}

theorem getElem?_reportsOf (h : Heap) (change : Change) (now id : Int) (ps : List OrderPtr) (i : Nat) :
    (reportsOf h change now id ps)[i]? = ps[i]?.map fun p => change.report (.make (h.order p) (id + 1 + i) now) := by
  induction ps generalizing id i with
  | nil => rfl
  | cons p ps inductionHypothesis =>
    cases i with
    | zero =>
      rw [reportsOf]
      simp
    | succ i =>
      rw [reportsOf, List.getElem?_cons_succ, List.getElem?_cons_succ, inductionHypothesis]
      congr 2
      funext q
      congr 2
      push_cast
      omega

/-- The report of a change says which order it is about, and is no trade. -/
theorem Change.report_reports (change : Change) (o : Order) (id now : Int) :
    (change.report (.make o id now)).Reports o ∧ (change.report (.make o id now)).accnt = o.accnt ∧
      (change.report (.make o id now)).state ≠ .trade := by
  cases change with
  | revise lots => exact ⟨⟨rfl, rfl⟩, rfl, nofun⟩
  | cancel => exact ⟨⟨rfl, rfl⟩, rfl, nofun⟩

/-- The report at an address. -/
theorem Filed.exec_change {es : List ExecPtr} {id : Int} (filed : Filed app app' (reportsOf app.heap change now id ps) es)
    {i : Nat} {p : OrderPtr} (at_i : ps[i]? = some p) :
    ∃ j lots cost, app'.exec (app.execs.fresh + i) = (change.report (.make (app.order p) j now)).posn lots cost := by
  obtain ⟨lots, cost, same⟩ := filed.exec (app.execs.fresh + i)
  refine ⟨id + 1 + i, lots, cost, ?_⟩
  have report : (reportsOf app.heap change now id ps)[i]? = some (change.report (.make (app.order p) (id + 1 + i) now)) := by
    rw [getElem?_reportsOf, at_i]
    rfl
  have found := OrdMap.find_allocs_fresh app.execs _ report
  rw [same, show (app.view.ledger (app.execs.allocs (reportsOf app.heap change now id ps))).exec (app.execs.fresh + i) = _ from
    OrdMap.get_of_find found]

/-- A revision or a cancellation. -/
theorem ChangeDone.tells (inv : app.Inv) (inv' : app'.Inv) (nodup : ps.Nodup) (done : app.ChangeDone a m change ps now resp mq app') :
    Tells app a m resp app' := by
  obtain ⟨filed, -, -⟩ := changed_filed (fun p member => (done.held p member).1.accnt) done.journaled done.changes done.execs
  have made := filed.made
  rw [length_reportsOf] at made
  have kept : Heap.Kept app.heap app'.heap := done.changes.kept
  have at_address : ∀ e ∈ app.newAddresses ps.length, ∃ p ∈ ps, (app'.exec e).Reports (app'.order p) ∧
      (app'.exec e).accnt = a ∧ (app'.exec e).state ≠ .trade := by
    intro e member
    obtain ⟨i, small, rfl⟩ := List.mem_map.mp member
    have small := List.mem_range.mp small
    obtain ⟨j, lots, cost, same⟩ := filed.exec_change (List.getElem?_eq_getElem small)
    have listed := List.getElem_mem small
    obtain ⟨reports, accnt, state⟩ := change.report_reports (app.order ps[i]) j now
    refine ⟨ps[i], listed, ?_, ?_, ?_⟩
    · rw [same]
      exact ⟨reports.1.trans (kept.same _).marketId.symm, reports.2.trans (kept.same _).id.symm⟩
    · rw [same]
      exact accnt.trans (done.held _ listed).1.accnt
    · rw [same]
      exact state
  have all : (app.newAddresses ps.length).filter (fun e => (app'.exec e).accnt = a) = app.newAddresses ps.length := by
    refine List.filter_eq_self.mpr fun e member => ?_
    obtain ⟨p, -, -, accnt, -⟩ := at_address e member
    exact decide_eq_true accnt
  have present : ∀ p ∈ ps, (app'.heap.orders.find p).isSome := fun p listed =>
    (kept.live p).trans (inv.live.present (done.held p listed).1.member)
  rw [done.response]
  exact
    { execs := by
        rw [made, all]
      history := by
        have history := filed.history a
        rw [length_reportsOf, all] at history
        exact history
      makerFirst := fun e member trade _ => by
        obtain ⟨p, -, -, -, other⟩ := at_address e member
        exact absurd trade other
      nodup
      orders := fun p => by
        constructor
        · intro listed
          obtain ⟨i, small, rfl⟩ := List.mem_iff_getElem.mp listed
          obtain ⟨j, lots, cost, same⟩ := filed.exec_change (List.getElem?_eq_getElem small)
          obtain ⟨reports, -, -⟩ := change.report_reports (app.order ps[i]) j now
          refine ⟨present _ listed, ?_, app.execs.fresh + i, List.mem_map_of_mem (List.mem_range.mpr small), ?_⟩
          · exact (kept.same _).accnt.trans (done.held _ listed).1.accnt
          · rw [same]
            exact ⟨reports.1.trans (kept.same _).marketId.symm, reports.2.trans (kept.same _).id.symm⟩
        · intro told
          obtain ⟨presentP, -, e, member, reports⟩ := told
          obtain ⟨q, listed, reportsQ, -, -⟩ := at_address e member
          rw [inv'.ids.reports presentP (present q listed) reports reportsQ]
          exact listed
      others := fun p present _ unlisted => by
        have same : app'.heap.order p = app.heap.order p := done.changes.order_ne (by rw [pairs_snd]; exact unlisted)
        rw [OrdMap.find_eq_some_get present, OrdMap.find_eq_some_get ((kept.live p).symm.trans present)]
        exact congrArg some same.symm
      posn := by
        rw [if_neg]
        · rfl
        · intro trades
          obtain ⟨e, member, trade⟩ := List.any_eq_true.mp trades
          obtain ⟨p, -, -, -, other⟩ := at_address e member
          exact other (of_decide_eq_true trade) }

/-- Distinct ids are those of distinct orders. -/
theorem Names.nodup {target : Target} (inv : app.Inv) (distinct : target.Distinct) (names : app.Names a m change target ps) :
    ps.Nodup := by
  cases target with
  | id id =>
    obtain ⟨p, rfl, -⟩ := names
    exact List.nodup_singleton p
  | ref ref =>
    obtain ⟨p, rfl, -⟩ := names
    exact List.nodup_singleton p
  | ids ids =>
    have accepted : List.Forall₂ (Accepts app a m change) ids ps := names
    have named : ps.map (fun p => (app.order p).id) = ids := by
      clear distinct names
      induction accepted with
      | nil => rfl
      | cons first _ inductionHypothesis => rw [List.map_cons, (first.key inv.live).1, inductionHypothesis]
    exact List.Nodup.of_map _ (by rw [named]; exact distinct)

end Change

theorem Tells.of_ensureSess (tells : Tells (app.ensureSess a) a m resp app') : Tells app a m resp app' := by
  obtain ⟨execs, history, makerFirst, nodup, orders, others, posn⟩ := tells
  have sess : ((app.ensureSess a).sess a).execs = (app.sess a).execs :=
    congrFun (congrArg View.history (view_ensureSess a)) a
  rw [sess] at history
  exact ⟨execs, history, makerFirst, nodup, orders, others, posn⟩

/-- The response of every successful call tells exactly what happened to the caller. -/
theorem response_tells {capacity maxExecs : Nat} {ops : List Op} {op : Op}
    (run : Run App.step (fun _ _ => True) (App.make capacity maxExecs) ops app) (asks : op.Asks a m)
    (done : app.call op = .ok (.response resp) app') : Tells app a m resp app' := by
  have inv := (Inv.make _ _).run run
  have inv' : app'.Inv := inv.step (congrArg Outcome.state done)
  cases op with
  | createOrder b n ref side lots ticks minLots now busDay =>
    obtain ⟨rfl, rfl⟩ := asks
    obtain ⟨resp', created, same⟩ := map_ok (withMarket_ok done)
    obtain rfl : resp' = resp := Reply.response.inj same
    have inv := inv.ensureSess b
    have ended := createOrder_spec inv b n ref side lots ticks minLots now busDay
    rw [created] at ended
    cases ended with
    | committed checked opened commits matches_ execs_ ledger response =>
      obtain ⟨filed, -, -⟩ := created_filed inv incoming_new rfl opened commits ledger
      rw [response]
      exact (created_tells inv inv' incoming_new rfl opened commits filed).of_ensureSess
  | changeOrder b n change target now =>
    obtain ⟨rfl, rfl, distinct⟩ := asks
    obtain ⟨resp', changed, same⟩ := map_ok (withMarket_ok done)
    obtain rfl : resp' = resp := Reply.response.inj same
    have inv := inv.ensureSess b
    obtain ⟨ps, mq, done, names⟩ := changeTarget_done inv changed
    exact (done.tells inv inv' (names.nodup inv distinct)).of_ensureSess
  | sess | createMarket | updateMarket | createTrade | archiveExec | archiveTrade | archiveTrades | pop => cases asks

/-- An order that meets an order of its own account, then one of another account. -/
theorem response_tells_self :
    let a : Symbol := .assign (bytes "MARAYL")
    let b : Symbol := .assign (bytes "GOSAYL")
    let m := toMarketId 1 0
    let op : Op := .createOrder a m [] .buy 10 6 0 4 0
    ∃ app app', Run App.step (fun _ _ => True) (App.make 16 16)
        [.createMarket 1 (.assign (bytes "EURUSD")) 0 0 0, .createOrder a m [] .sell 3 5 0 2 0,
          .createOrder b m [] .sell 4 5 0 3 0] app ∧
      app.call op = .ok (.response ⟨some m, [2, 0], [2, 3, 4, 6], some (a, m)⟩) app' ∧
      Tells app a m ⟨some m, [2, 0], [2, 3, 4, 6], some (a, m)⟩ app' := by
  intro a b m op
  have made : ∃ app ∈ Run.exec App.step (fun _ _ => True) (App.make 16 16)
      [.createMarket 1 (.assign (bytes "EURUSD")) 0 0 0, .createOrder a m [] .sell 3 5 0 2 0,
        .createOrder b m [] .sell 4 5 0 3 0],
      ∃ r ∈ (app.call op).returned, r.1 = .response ⟨some m, [2, 0], [2, 3, 4, 6], some (a, m)⟩ := by decide
  obtain ⟨app, done, ⟨result, app'⟩, returned, told⟩ := made
  cases told
  have ok := Outcome.eq_ok returned
  have run := Run.of_exec done
  have asks : op.Asks a m := ⟨rfl, rfl⟩
  exact ⟨app, app', run, ok, response_tells run asks ok⟩

end App

end Swirly
