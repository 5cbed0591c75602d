import Swirly.Lob.Load
import Swirly.Verified.Sequence

/-!
# Reloading a history

A live session pushes its executions to the front of a bounded buffer, and a full buffer drops the oldest.  A reload pushes
them to the back, the latest first, and a full buffer drops the latest.  The two agree as long as the buffer is not full.
-/

namespace Swirly

open Function

/-! ## Bounded buffers -/

section Buffers

variable {α : Type}

/-- What a full buffer keeps of the elements that are pushed to the back. -/
theorem foldl_push_back (capacity : Nat) (xs ys : List α) (bounded : xs.length ≤ capacity) :
    ys.foldl (fun kept y => (kept ++ [y]).drop (kept.length + 1 - capacity)) xs =
      (xs ++ ys).drop ((xs ++ ys).length - capacity) := by
  induction ys generalizing xs with
  | nil => simp [bounded]
  | cons y ys inductionHypothesis =>
    rw [List.foldl_cons, inductionHypothesis]
    · have whole : (xs ++ [y]).drop (xs.length + 1 - capacity) ++ ys = (xs ++ y :: ys).drop (xs.length + 1 - capacity) := by
        rw [← List.drop_append_of_le_length (by rw [List.length_append, List.length_singleton]; omega), List.append_assoc,
          List.singleton_append]
      rw [whole, List.drop_drop, List.length_drop, List.length_append, List.length_cons]
      congr 1
      omega
    · rw [List.length_drop, List.length_append, List.length_singleton]
      omega

theorem take_append_take (capacity : Nat) (xs ys : List α) :
    (xs ++ ys.take capacity).take capacity = (xs ++ ys).take capacity := by
  rw [List.take_append, List.take_append, List.take_take]
  congr 2
  omega

/-- The first elements are the last ones only if there are no others. -/
theorem drop_eq_take_iff {capacity : Nat} (one : 1 ≤ capacity) {xs : List α} (nodup : xs.Nodup) :
    xs.drop (xs.length - capacity) = xs.take capacity ↔ xs.length ≤ capacity := by
  constructor
  · intro same
    by_contra longer
    have first := congrArg (fun ys : List α => ys[0]?) same
    simp only [List.getElem?_drop, List.getElem?_take] at first
    rw [if_pos (by omega)] at first
    have equal := (List.getElem?_inj (by omega) nodup).mp first
    omega
  · intro short
    rw [List.take_of_length_le short, Nat.sub_eq_zero_of_le short, List.drop_zero]

end Buffers

/-! ## The live history -/

/-- The execution of the account that a message journals. -/
def Msg.execOf (a : Symbol) : Msg → Option IdKey
  | .createExec body => if body.accnt = a.buf then some (idKey body.marketId body.id) else none
  | _ => none

/-- A model that delivers the markets, the orders and the executions of the tables, the last ones first. -/
def Db.deliver (db : Db) : Model where
  markets := db.readMarkets
  orders := (db.orders.entries.map Prod.snd).map OrderRow.order
  execs _ := (db.execs.entries.map Prod.snd).reverse.map ExecRow.exec
  trades := []
  posns _ := []

/-- The name of the account is a C string. -/
def Msg.Named : Msg → Prop
  | .createExec body => (Symbol.assign (toStringView body.accnt)).buf = body.accnt
  | _ => True

instance (msg : Msg) : Decidable msg.Named :=
  match msg with
  | .createExec body => inferInstanceAs (Decidable ((Symbol.assign (toStringView body.accnt)).buf = body.accnt))
  | .createMarket .. | .updateMarket .. | .archiveTrade .. => .isTrue trivial

namespace App

variable {app app' : App} {op : Op} {a : Symbol} {news : List Exec} {es : List ExecPtr}

/-- The history of an account, by the keys of its executions. -/
def recent (app : App) (a : Symbol) : List IdKey := (app.sess a).execs.map fun e => (app.exec e).key

/-- The executions of the account, in the sequence of the journal. -/
def journaledFor (app : App) (a : Symbol) : List IdKey := app.mq.posted.filterMap (Msg.execOf a)

/-- The history holds the latest executions that were journaled. -/
structure Latest (app : App) (a : Symbol) : Prop where
  present : ∀ e ∈ (app.sess a).execs, (app.execs.find e).isSome
  recent : app.recent a = (app.journaledFor a).reverse.take app.maxExecs

theorem filterMap_execOf (a : Symbol) (news : List Exec) :
    (news.map fun x => Msg.createExec (MsgQueue.execBody x)).filterMap (Msg.execOf a) =
      (news.filter fun x => x.accnt = a).map fun x => x.key := by
  induction news with
  | nil => rfl
  | cons x news inductionHypothesis =>
    rw [List.map_cons, List.filterMap_cons, inductionHypothesis]
    by_cases own : x.accnt = a
    · rw [List.filter_cons_of_pos (by exact decide_eq_true own)]
      simp [Msg.execOf, MsgQueue.execBody, own, Request.key]
    · have other : x.accnt.buf ≠ a.buf := fun same => own (Symbol.buf_injective same)
      rw [List.filter_cons_of_neg (by simpa using own)]
      simp [Msg.execOf, MsgQueue.execBody, other]

theorem journaledFor_silent (silent : app.mq.Silent app'.mq) (a : Symbol) : app'.journaledFor a = app.journaledFor a := by
  obtain ⟨msgs, posted, others⟩ := silent
  have none_ : msgs.filterMap (Msg.execOf a) = [] := by
    refine List.filterMap_eq_nil_iff.mpr fun msg member => ?_
    cases msg with
    | createExec body => exact absurd member (others body)
    | createMarket | updateMarket | archiveTrade => rfl
  rw [journaledFor, posted, List.filterMap_append, none_, List.append_nil, journaledFor]

theorem Latest.idle (latest : app.Latest a) (idle : app.Idle app') (maxExecs : app'.maxExecs = app.maxExecs) :
    app'.Latest a := by
  have history : (app'.sess a).execs = (app.sess a).execs := congrFun idle.history a
  have exec : app'.exec = app.exec := by
    funext e
    rw [App.exec, idle.execs, App.exec]
  refine ⟨?_, ?_⟩
  · rw [history, idle.execs]
    exact latest.present
  · rw [App.recent, history, exec, journaledFor_silent idle.silent, maxExecs]
    exact latest.recent

/-- The reports of the account are filed in the sequence in which they are journaled. -/
theorem Latest.filed (latest : app.Latest a) (filed : Filed app app' news es)
    (ordered : (es.filter fun e => (app'.exec e).accnt = a).map (fun e => (app'.exec e).key) =
      (news.filter fun x => x.accnt = a).map fun x => x.key) : app'.Latest a := by
  obtain ⟨filedFor, entered⟩ : ∃ ds, ds = es.filter fun e => (app'.exec e).accnt = a := ⟨_, rfl⟩
  have history := filed.history a
  rw [← entered] at history ordered
  have old : ∀ e ∈ (app.sess a).execs, (app'.execs.find e).isSome ∧ (app'.exec e).key = (app.exec e).key := by
    intro e member
    obtain ⟨x, found⟩ := Option.isSome_iff_exists.mp (latest.present e member)
    obtain ⟨live, same⟩ := filed.old (OrdMap.lt_fresh found)
    refine ⟨live.trans (latest.present e member), ?_⟩
    rw [Exec.eq_posn same]
    rfl
  have journaled : app'.journaledFor a = app.journaledFor a ++ (news.filter fun x => x.accnt = a).map fun x => x.key := by
    rw [journaledFor, congrArg MsgQueue.posted filed.journaled, List.filterMap_append, filterMap_execOf, journaledFor]
  have before : (app.sess a).execs.map (fun e => (app'.exec e).key) = (app.journaledFor a).reverse.take app.maxExecs := by
    rw [← latest.recent, App.recent]
    exact List.map_congr_left fun e member => (old e member).2
  have maxExecs : app'.maxExecs = app.maxExecs := filed.entered.maxExecs
  cases none_ : filedFor with
  | nil =>
    rw [none_] at history ordered
    refine ⟨fun e member => ?_, ?_⟩
    · rw [history] at member
      exact (old e member).1
    · rw [App.recent, history, maxExecs, journaled, ← ordered, List.map_nil, List.append_nil]
      exact before
  | cons d ds =>
    rw [pushAll_eq _ _ (none_ ▸ List.cons_ne_nil d ds)] at history
    refine ⟨fun e member => ?_, ?_⟩
    · rw [history] at member
      cases List.mem_append.mp (List.mem_of_mem_take member) with
      | inl new =>
        rw [List.mem_reverse, entered] at new
        have made := filed.addresses.mem_iff.mp (List.mem_filter.mp new).1
        exact (filed.entered.live e).trans (app.present_newAddresses news e made)
      | inr listed => exact (old e listed).1
    · rw [App.recent, history, List.map_take, List.map_append, List.map_reverse, ordered, before, take_append_take, maxExecs,
        journaled, List.reverse_append]

/-- In the sequence of their addresses, the reports are as they are journaled. -/
theorem Filed.ordered (filed : Filed app app' news es) (a : Symbol) :
    ((app.newAddresses news.length).filter fun e => (app'.exec e).accnt = a).map (fun e => (app'.exec e).key) =
      (news.filter fun x => x.accnt = a).map fun x => x.key := by
  obtain ⟨made, same⟩ : ∃ made, made = (app.view.ledger (app.execs.allocs news)).exec := ⟨_, rfl⟩
  have exec : ∀ e, (app'.exec e).accnt = (made e).accnt ∧ (app'.exec e).key = (made e).key := fun e => by
    obtain ⟨lots, cost, stamped⟩ := filed.exec e
    rw [stamped, same]
    exact ⟨rfl, rfl⟩
  have read := map_newAddresses app news
  rw [← same] at read
  conv_rhs => rw [← read]
  rw [List.filter_map, List.map_map]
  simp only [exec, Function.comp_def]

theorem Effect.maxExecs (inv : app.Inv) (effect : Effect app op app') : app'.maxExecs = app.maxExecs := by
  cases effect with
  | idle grown view execs => exact congrArg View.maxExecs view
  | posted view archived execs silent => exact congrArg View.maxExecs view
  | archived view archived owner execs silent => exact congrArg View.maxExecs view
  | created checked opened commits ledger =>
    exact (created_filed inv incoming_new rfl opened commits ledger).1.entered.maxExecs
  | changed held journaled changes execs =>
    exact (changed_filed (fun p member => (held p member).1.accnt) journaled changes execs).1.entered.maxExecs
  | traded traded =>
    cases traded.filed rfl rfl rfl rfl rfl with
    | inl alone => exact alone.2.1.entered.maxExecs
    | inr paired => exact paired.2.2.1.entered.maxExecs

theorem step_maxExecs (inv : app.Inv) (stepped : app.step op = some app') : app'.maxExecs = app.maxExecs := by
  obtain ⟨app₀, view, -, inv₀, effect, -⟩ := step_effect inv stepped
  exact (effect.maxExecs inv₀).trans (congrArg View.maxExecs view)

/-- The trades of a call with oneself are journaled in the other sequence than they are filed. -/
def InSequence (a : Symbol) (app : App) : Op → Prop
  | .createTrade b m ref side lots ticks liqInd cpty created =>
    b = a → cpty = a → cpty.isEmpty = false →
      (app.step (.createTrade b m ref side lots ticks liqInd cpty created)).map (fun next => next.mq.posted) = some app.mq.posted
  | _ => True

instance (a : Symbol) (app : App) (op : Op) : Decidable (InSequence a app op) :=
  match op with
  | .createTrade b m ref side lots ticks liqInd cpty created =>
    inferInstanceAs (Decidable (b = a → cpty = a → cpty.isEmpty = false →
      (app.step (.createTrade b m ref side lots ticks liqInd cpty created)).map (fun next => next.mq.posted) = some app.mq.posted))
  | .sess .. | .createMarket .. | .updateMarket .. | .createOrder .. | .changeOrder .. | .archiveExec .. | .archiveTrade ..
  | .archiveTrades .. | .pop => .isTrue trivial

theorem Latest.step (inv : app.Inv) (latest : app.Latest a) (inSequence : InSequence a app op)
    (stepped : app.step op = some app') : app'.Latest a := by
  cases step_filing inv stepped with
  | idle idle => exact latest.idle idle (step_maxExecs inv stepped)
  | created incoming made filed stamped numbered => exact latest.filed filed (filed.ordered a)
  | changed own made filed stamped numbered => exact latest.filed filed (filed.ordered a)
  | oneSided made alone filed execs numbered => exact latest.filed filed (filed.ordered a)
  | @twoSided b m ref side lots ticks liqInd cpty created trade other _ made opposite paired room filed execs numbered =>
    have addresses : app.newAddresses [trade, other].length = [app.execs.fresh, app.execs.fresh + 1] := rfl
    have read := map_newAddresses app [trade, other]
    rw [addresses] at read
    obtain ⟨first, second⟩ := List.cons.inj read
    have accnt : (app'.exec app.execs.fresh).accnt = b := by
      obtain ⟨lots, cost, stamped⟩ := filed.exec app.execs.fresh
      rw [stamped, first, made]
      rfl
    have cptyAccnt : (app'.exec (app.execs.fresh + 1)).accnt = cpty := by
      obtain ⟨lots, cost, stamped⟩ := filed.exec (app.execs.fresh + 1)
      rw [stamped, (List.cons.inj second).1, opposite, made]
      rfl
    have once : ¬(b = a ∧ cpty = a) := fun both => by
      have unposted := inSequence both.1 both.2 paired
      rw [stepped, Option.map_some, Option.some.injEq, congrArg MsgQueue.posted filed.journaled] at unposted
      simp at unposted
    refine latest.filed filed ((congrArg _ ?_).trans (filed.ordered a))
    rw [addresses]
    by_cases own : b = a
    · have other : cpty ≠ a := fun also => once ⟨own, also⟩
      simp [accnt, cptyAccnt, own, other]
    · simp [accnt, cptyAccnt, own, List.filter_cons]

theorem latest_make (capacity maxExecs : Nat) (a : Symbol) : (App.make capacity maxExecs).Latest a where
  present e member := by cases member
  recent := by
    show [] = List.take maxExecs []
    rw [List.take_nil]

theorem latest_run {capacity maxExecs : Nat} {ops : List Op}
    (run : Run App.step (InSequence a) (App.make capacity maxExecs) ops app) : app.Latest a ∧ app.maxExecs = maxExecs := by
  have kept : app.Inv ∧ app.Latest a ∧ app.maxExecs = maxExecs := by
    refine run.invariant (I := fun t => t.Inv ∧ t.Latest a ∧ t.maxExecs = maxExecs)
      (fun t op u kept inSequence stepped => ?_) ⟨.make _ _, latest_make _ _ a, rfl⟩
    obtain ⟨inv, latest, bound⟩ := kept
    exact ⟨inv.step stepped, latest.step inv inSequence stepped, (step_maxExecs inv stepped).trans bound⟩
  exact kept.2

/-! ## The reloaded history -/

/-- The history of an account while the engine is loaded. -/
structure Rebuilt (app : App) (a : Symbol) (maxExecs : Nat) (keys : List IdKey) : Prop where
  maxExecs : app.maxExecs = maxExecs
  present : ∀ e ∈ (app.sess a).execs, (app.execs.find e).isSome
  recent : app.recent a = keys

variable {maxExecs : Nat} {keys : List IdKey}

/-- Executions that are made later leave the history as it is. -/
theorem Rebuilt.congr (rebuilt : app.Rebuilt a maxExecs keys) (same : app'.maxExecs = app.maxExecs)
    (execs : (app'.sess a).execs = (app.sess a).execs)
    (kept : ∀ e, (app.execs.find e).isSome → app'.execs.find e = app.execs.find e) : app'.Rebuilt a maxExecs keys where
  maxExecs := same.trans rebuilt.maxExecs
  present e member := by
    rw [execs] at member
    rw [kept e (rebuilt.present e member)]
    exact rebuilt.present e member
  recent := by
    rw [← rebuilt.recent, App.recent, execs, App.recent]
    refine List.map_congr_left fun e member => ?_
    rw [App.exec, OrdMap.get, kept e (rebuilt.present e member)]
    rfl

theorem find_alloc_old {x : Exec} (e : ExecPtr) (present : (app.execs.find e).isSome) :
    (app.execs.alloc x).find e = app.execs.find e := by
  obtain ⟨y, found⟩ := Option.isSome_iff_exists.mp present
  rw [OrdMap.find_alloc_of_some found, found]

/-- A session is stored with its history as it was. -/
theorem execs_store {b : Symbol} {s : Sess} (sesss : app'.sesss = ((app.ensureSess b).setSess b s).sesss)
    (same : s.execs = ((app.ensureSess b).sess b).execs) : (app'.sess a).execs = (app.sess a).execs := by
  rw [← sess_ensureSess app b a, sess, sesss]
  show (((app.ensureSess b).setSess b s).sess a).execs = _
  rw [sess_setSess]
  split
  next own => rw [same, own]
  next => rfl

theorem Rebuilt.loadExec (rebuilt : app.Rebuilt a maxExecs keys) (x : Exec) : (app.loadExec x).Rebuilt a maxExecs
    (if x.accnt = a then (keys ++ [x.key]).drop (keys.length + 1 - maxExecs) else keys) := by
  have sess : (app.loadExec x).sess a =
      if a = x.accnt then (app.sess x.accnt).pushExecBack app.maxExecs app.execs.fresh else app.sess a := by
    simp only [App.loadExec, sess_setSess, ← sess_ensureSess app x.accnt]
    rfl
  by_cases own : x.accnt = a
  · subst own
    rw [if_pos rfl] at sess ⊢
    have length : keys.length = (app.sess x.accnt).execs.length := by
      rw [← rebuilt.recent, App.recent, List.length_map]
    refine ⟨rebuilt.maxExecs, fun e member => ?_, ?_⟩
    · rw [sess] at member
      show ((app.execs.alloc x).find e).isSome
      cases List.mem_append.mp (List.mem_of_mem_drop member) with
      | inl old =>
        rw [find_alloc_old e (rebuilt.present e old)]
        exact rebuilt.present e old
      | inr new => simp [OrdMap.find_alloc, List.mem_singleton.mp new]
    · have old : (app.sess x.accnt).execs.map (fun e => ((app.execs.alloc x).get e).key) = keys := by
        rw [← rebuilt.recent]
        refine List.map_congr_left fun e member => ?_
        rw [OrdMap.get, find_alloc_old e (rebuilt.present e member)]
        rfl
      have new : (app.execs.alloc x).get app.execs.fresh = x := OrdMap.get_of_find (by simp [OrdMap.find_alloc])
      rw [App.recent, sess, Sess.pushExecBack, List.map_drop, List.map_append, List.map_singleton, length, rebuilt.maxExecs]
      show List.drop _ ((app.sess x.accnt).execs.map (fun e => ((app.execs.alloc x).get e).key) ++
        [((app.execs.alloc x).get app.execs.fresh).key]) = _
      rw [old, new]
  · rw [if_neg own]
    rw [if_neg (Ne.symm own)] at sess
    exact rebuilt.congr rfl (congrArg Sess.execs sess) fun e => find_alloc_old e

theorem Rebuilt.loadTrade (rebuilt : app.Rebuilt a maxExecs keys) (x : Exec) : (app.loadTrade x).Rebuilt a maxExecs keys := by
  refine rebuilt.congr rfl ?_ fun e => find_alloc_old e
  exact execs_store (b := x.accnt) rfl rfl

theorem Rebuilt.loadPosn (rebuilt : app.Rebuilt a maxExecs keys) (posn : PosnPtr × Posn) :
    (app.loadPosn posn).Rebuilt a maxExecs keys := by
  refine rebuilt.congr rfl ?_ fun _ _ => rfl
  exact execs_store (b := posn.1.1) rfl rfl

theorem Rebuilt.loadOrder (rebuilt : app.Rebuilt a maxExecs keys) {o : Order} (loaded : app.loadOrder o = some app') :
    app'.Rebuilt a maxExecs keys := by
  simp only [App.loadOrder] at loaded
  split at loaded
  next => cases loaded
  next =>
    obtain ⟨⟨heap, market⟩, -, rfl⟩ := Option.map_eq_some_iff.mp loaded
    refine rebuilt.congr rfl ?_ fun _ _ => rfl
    exact execs_store (b := o.accnt) rfl rfl

theorem Rebuilt.foldl {α : Type} {f : App → α → App} (kept : ∀ {app : App} (x : α), app.Rebuilt a maxExecs keys →
      (f app x).Rebuilt a maxExecs keys) (rebuilt : app.Rebuilt a maxExecs keys) (xs : List α) :
    (xs.foldl f app).Rebuilt a maxExecs keys := by
  induction xs generalizing app with
  | nil => exact rebuilt
  | cons x xs inductionHypothesis => exact inductionHypothesis (kept x rebuilt)

theorem Rebuilt.loadOrders {os : List Order} (rebuilt : app.Rebuilt a maxExecs keys) (loaded : os.foldlM App.loadOrder app = some app') :
    app'.Rebuilt a maxExecs keys := by
  induction os generalizing app with
  | nil =>
    cases loaded
    exact rebuilt
  | cons o os inductionHypothesis =>
    obtain ⟨next, first, rest⟩ := Option.bind_eq_some_iff.mp loaded
    exact inductionHypothesis (rebuilt.loadOrder first) rest

theorem Rebuilt.loadExecs (xs : List Exec) (rebuilt : app.Rebuilt a maxExecs keys) : (xs.foldl App.loadExec app).Rebuilt a maxExecs
    (((xs.filter fun x => x.accnt = a).map fun x => x.key).foldl
      (fun kept k => (kept ++ [k]).drop (kept.length + 1 - maxExecs)) keys) := by
  induction xs generalizing app keys with
  | nil => exact rebuilt
  | cons x xs inductionHypothesis =>
    have first := inductionHypothesis (rebuilt.loadExec x)
    by_cases own : x.accnt = a
    · rw [if_pos own] at first
      rw [List.filter_cons_of_pos (by exact decide_eq_true own)]
      exact first
    · rw [if_neg own] at first
      rw [List.filter_cons_of_neg (by simpa using own)]
      exact first

/-- A load keeps the last of the executions that are delivered for an account. -/
theorem load_recent {capacity : Nat} {model : Model} {now busDay : Int}
    (loaded : (App.make capacity maxExecs).load model now busDay = some app') :
    app'.recent a = (((model.execs (now - oneWeek)).filter fun x => x.accnt = a).map fun x => x.key).drop
      ((((model.execs (now - oneWeek)).filter fun x => x.accnt = a).map fun x => x.key).length - maxExecs) := by
  have start : (App.make capacity maxExecs).Rebuilt a maxExecs [] := ⟨rfl, (fun e member => by cases member), rfl⟩
  have markets := Rebuilt.foldl (f := loadMarket) (fun _ rebuilt => rebuilt.congr rfl rfl fun _ _ => rfl) start model.markets
  simp only [load] at loaded
  split at loaded
  next => cases loaded
  next ordered orders =>
    cases loaded
    have execs := (markets.loadOrders orders).loadExecs (model.execs (now - oneWeek))
    rw [foldl_push_back maxExecs [] _ (Nat.zero_le _), List.nil_append] at execs
    have trades := Rebuilt.foldl (f := App.loadTrade) (fun x rebuilt => rebuilt.loadTrade x) execs model.trades
    have posns := Rebuilt.foldl (f := App.loadPosn) (fun x rebuilt => rebuilt.loadPosn x) trades (model.posns busDay)
    exact posns.recent

/-! ## Both -/

variable {db : Db} {rows : List ExecRow}

/-- The names of the accounts are C strings. -/
def Named (app : App) : Prop := ∀ msg ∈ app.mq.posted, msg.Named

instance (app : App) : Decidable app.Named := inferInstanceAs (Decidable (∀ msg ∈ app.mq.posted, msg.Named))

instance (a : Symbol) : Decidable a.Textual := inferInstanceAs (Decidable (_ = a))

theorem journaledFor_named (named : app.Named) (textual : a.Textual) :
    app.mq.posted.filterMap (Msg.reportOf (toStringView a.buf)) = app.journaledFor a := by
  refine List.filterMap_congr fun msg member => ?_
  cases msg with
  | createMarket | updateMarket | archiveTrade => rfl
  | createExec body =>
    have own : toStringView body.accnt = toStringView a.buf ↔ body.accnt = a.buf := by
      constructor
      · intro same
        rw [← (named _ member : Msg.Named (.createExec body)), same, textual]
      · exact congrArg toStringView
    simp only [Msg.reportOf, Msg.execOf, own]

/-- The rows that are read for an account are those of its executions. -/
theorem filter_exec (named : app.Named) (textual : a.Textual)
    (journal : Run SqliteJourn.write (fun _ _ => True) Db.empty app.mq.posted db)
    (stored : ∀ row ∈ rows, ∃ k, db.execs.find k = some row) :
    ((rows.map ExecRow.exec).filter fun x => x.accnt = a).map (fun x => x.key) =
      (rows.filter fun row => row.accnt = toStringView a.buf).map ExecRow.key := by
  have own : ∀ row ∈ rows, row.exec.accnt = a ↔ row.accnt = toStringView a.buf := by
    intro row member
    constructor
    · intro same
      obtain ⟨k, found⟩ := stored row member
      obtain ⟨msg, posted, reports⟩ :=
        List.mem_filterMap.mp ((SqliteJourn.run_sequenced row.accnt journal).owner k row found rfl)
      cases msg with
      | createMarket | updateMarket | archiveTrade => cases reports
      | createExec body =>
        simp only [Msg.reportOf] at reports
        split at reports
        next text =>
          have read : Symbol.assign row.accnt = a := same
          rw [← text] at read
          rw [← text, ← read, (named _ posted : Msg.Named (.createExec body))]
        next => cases reports
    · intro same
      show Symbol.assign row.accnt = a
      rw [same]
      exact textual
  rw [List.filter_map, List.map_map]
  have filters : rows.filter ((fun x : Exec => decide (x.accnt = a)) ∘ ExecRow.exec) =
      rows.filter fun row => row.accnt = toStringView a.buf :=
    List.filter_congr fun row member => decide_eq_decide.mpr (own row member)
  rw [filters]
  rfl

/-- The history that a load rebuilds is the live one exactly when the account has no more executions than it keeps. -/
theorem load_recent_iff {capacity capacity' : Nat} {ops : List Op} {model : Model} {now busDay : Int} (one : 1 ≤ maxExecs)
    (run : Run App.step (InSequence a) (App.make capacity maxExecs) ops app) (named : app.Named) (textual : a.Textual)
    (journal : Run SqliteJourn.write (fun _ _ => True) Db.empty app.mq.posted db)
    (selected : db.SelectsExecs (now - oneWeek) rows) (delivered : model.execs (now - oneWeek) = rows.map ExecRow.exec)
    (window : ∀ row ∈ db.execs.entries.map Prod.snd, msSinceEpoch (now - oneWeek) < row.created)
    (loaded : (App.make capacity' maxExecs).load model now busDay = some app') :
    app'.recent a = app.recent a ↔ (app.journaledFor a).length ≤ maxExecs := by
  obtain ⟨latest, bound⟩ := latest_run run
  have sequenced := SqliteJourn.run_sequenced (toStringView a.buf) journal
  rw [journaledFor_named named textual] at sequenced
  have stored : ∀ row ∈ rows, ∃ k, db.execs.find k = some row := fun row member => by
    obtain ⟨⟨k, _⟩, entry, rfl⟩ := List.mem_map.mp (List.mem_filter.mp (selected.1.mem_iff.mp member)).1
    exact ⟨k, OrdMap.mem_entries.mp entry⟩
  have rebuilt := load_recent (a := a) loaded
  rw [delivered, filter_exec named textual journal stored, sequenced.delivered selected fun k row found _ =>
    window row (List.mem_map_of_mem (OrdMap.mem_entries.mpr found))] at rebuilt
  rw [rebuilt, latest.recent, bound, drop_eq_take_iff one (List.nodup_reverse.mpr sequenced.nodup), List.length_reverse]

/-- Two executions of an account that keeps four. -/
theorem load_recent_both :
    let a : Symbol := .assign (bytes "MARAYL")
    let b : Symbol := .assign (bytes "GOSAYL")
    let m := toMarketId 1 0
    ∃ app db app', Run App.step (InSequence a) (App.make 16 4)
        [.createMarket 1 (.assign (bytes "EURUSD")) 0 0 0, .createOrder a m [] .sell 10 5 0 2000000 0,
          .createOrder b m [] .buy 10 5 0 3000000 0] app ∧
      Run SqliteJourn.write (fun _ _ => True) Db.empty app.mq.posted db ∧
      (App.make 16 4).load db.deliver 4000000 0 = some app' ∧
      app'.recent a = app.recent a ∧ app.recent a = [idKey m 3, idKey m 1] := by
  intro a b m
  have made : ∃ app ∈ Run.exec App.step (InSequence a) (App.make 16 4)
      [.createMarket 1 (.assign (bytes "EURUSD")) 0 0 0, .createOrder a m [] .sell 10 5 0 2000000 0,
        .createOrder b m [] .buy 10 5 0 3000000 0],
      app.Named ∧ app.recent a = [idKey m 3, idKey m 1] ∧ (app.journaledFor a).length ≤ 4 ∧
      ∃ db ∈ Run.exec SqliteJourn.write (fun _ _ => True) Db.empty app.mq.posted,
        db.SelectsExecs (4000000 - oneWeek) (db.execs.entries.map Prod.snd).reverse ∧
        (∀ row ∈ db.execs.entries.map Prod.snd, msSinceEpoch (4000000 - oneWeek) < row.created) ∧
        ∃ app' ∈ (App.make 16 4).load db.deliver 4000000 0, True := by decide
  obtain ⟨app, done, named, recent, few, db, applied, selected, window, app', loaded, -⟩ := made
  have run : Run App.step (InSequence a) (App.make 16 4) _ app := .of_exec done
  have journal : Run SqliteJourn.write (fun _ _ => True) Db.empty app.mq.posted db := .of_exec applied
  refine ⟨app, db, app', run, journal, loaded, ?_, recent⟩
  exact (load_recent_iff (by decide) run named (by decide) journal selected rfl window loaded).mpr few

/-- Three executions of an account that keeps two: the live history has the last two, but the rebuilt one the first two. -/
theorem load_recent_oldest :
    let a : Symbol := .assign (bytes "MARAYL")
    let m := toMarketId 1 0
    ∃ app db app', Run App.step (InSequence a) (App.make 16 2)
        [.createMarket 1 (.assign (bytes "EURUSD")) 0 0 0, .createOrder a m [] .sell 10 5 0 2000000 0,
          .createOrder a m [] .sell 10 6 0 3000000 0, .createOrder a m [] .sell 10 7 0 4000000 0] app ∧
      app.mq.posted.foldlM SqliteJourn.write Db.empty = some db ∧
      db.SelectsExecs (5000000 - oneWeek) (db.execs.entries.map Prod.snd).reverse ∧
      (∀ row ∈ db.execs.entries.map Prod.snd, msSinceEpoch (5000000 - oneWeek) < row.created) ∧
      (App.make 16 2).load db.deliver 5000000 0 = some app' ∧
      app.recent a = [idKey m 3, idKey m 2] ∧ app'.recent a = [idKey m 2, idKey m 1] := by
  intro a m
  have made : ∃ app ∈ Run.exec App.step (InSequence a) (App.make 16 2)
      [.createMarket 1 (.assign (bytes "EURUSD")) 0 0 0, .createOrder a m [] .sell 10 5 0 2000000 0,
        .createOrder a m [] .sell 10 6 0 3000000 0, .createOrder a m [] .sell 10 7 0 4000000 0],
      app.recent a = [idKey m 3, idKey m 2] ∧ ∃ db ∈ app.mq.posted.foldlM SqliteJourn.write Db.empty,
        db.SelectsExecs (5000000 - oneWeek) (db.execs.entries.map Prod.snd).reverse ∧
        (∀ row ∈ db.execs.entries.map Prod.snd, msSinceEpoch (5000000 - oneWeek) < row.created) ∧
        ∃ app' ∈ (App.make 16 2).load db.deliver 5000000 0, app'.recent a = [idKey m 2, idKey m 1] := by decide
  obtain ⟨app, done, live, db, applied, selected, window, app', loaded, rebuilt⟩ := made
  exact ⟨app, db, app', .of_exec done, applied, selected, window, loaded, live, rebuilt⟩

end App

end Swirly
