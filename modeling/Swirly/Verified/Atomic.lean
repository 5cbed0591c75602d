import Swirly.Verified.App.Step

/-!
# Bulk calls

A call with a list of ids is atomic unless the commit phase looks up an order or a trade that an earlier iteration has
removed.  That takes a repeated id which the checks let through and the journal has room for.
-/

namespace Swirly.App

open Function MarketSide

variable {app app' : App} {a : Symbol} {m now id : Int} {change : Change} {ids : List Int} {ps : List OrderPtr} {p : OrderPtr}

/-- A change either throws and leaves everything but the ids as it was, or is journaled and made for every order listed. -/
inductive Atomic (app : App) (a : Symbol) (m : Int) (change : Change) (ids : List Int) (now : Int) : Outcome Response → Prop
  | unchanged {e : Exception} {app' : App} {given : Int} (restored : Restored app m given app') :
      Atomic app a m change ids now (.throw e app')
  | committed {resp : Response} {app' : App} {ps : List OrderPtr}
      (listed : List.Forall₂ (fun id p => (app.view.orders a).find (idKey m id) = some p) ids ps)
      (journaled : app.mq.Journaled (reportsOf app.heap change now (app.view.maxId m) ps) app'.mq)
      (changed : ∀ p ∈ ps, ∃ level, app'.order p = { change.apply (app.order p) now with level }) :
      Atomic app a m change ids now (.ok resp app')

/-- The same for trades that are archived. -/
inductive AtomicArchive (app : App) (a : Symbol) (m : Int) (ids : List Int) : Outcome Unit → Prop
  | unchanged {e : Exception} : AtomicArchive app a m ids (.throw e app)
  | committed {app' : App} (journaled : app'.mq.archived = app.mq.archived ++ (ids.filter fun id => id ≠ 0).map (idKey m))
      (archived : ∀ id ∈ ids, ((app.view.trades a).find (idKey m id)).isSome ∧
        (app'.view.trades a).find (idKey m id) = none) :
      AtomicArchive app a m ids (.ok () app')

/-- The checks fail, the journal is too full, or a repeated id is that of an order which the change leaves open. -/
def Safe (app : App) (a : Symbol) (m : Int) (change : Change) (ids : List Int) : Prop :=
  (∃ id ∈ ids, ∀ p, ¬ Accepts app a m change id p) ∨ app.mq.reserve < ids.length ∨
    ∀ id, 2 ≤ ids.count id → ∀ p, (app.view.orders a).find (idKey m id) = some p → change.Stays (app.order p)

def SafeArchive (app : App) (a : Symbol) (m : Int) (ids : List Int) : Prop :=
  (∃ id ∈ ids, (app.view.trades a).find (idKey m id) = none) ∨ app.mq.reserve < MsgQueue.steps ids.length ∨ ids.Nodup

/-- An id is repeated exactly when its order is. -/
theorem count_accepts (live : app.view.Live) (accepted : List.Forall₂ (Accepts app a m change) ids ps)
    (accepts : Accepts app a m change id p) : ids.count id = ps.count p := by
  induction accepted with
  | nil => rfl
  | @cons i q ids ps first _ inductionHypothesis =>
    have same : i = id ↔ q = p := by
      constructor
      · intro here
        exact Option.some.inj ((here ▸ first.found).symm.trans accepts.found)
      · intro here
        rw [← (first.key live).1, here, (accepts.key live).1]
    rw [List.count_cons, List.count_cons, inductionHypothesis]
    simp only [beq_iff_eq, same]

theorem accepted_of_mem (accepted : List.Forall₂ (Accepts app a m change) ids ps) (member : id ∈ ids) :
    ∃ q, Accepts app a m change id q := by
  induction accepted with
  | nil => cases member
  | cons first _ inductionHypothesis =>
    cases List.mem_cons.mp member with
    | inl here => exact ⟨_, here ▸ first⟩
    | inr later => exact inductionHypothesis later

theorem accepted_of_mem_orders (accepted : List.Forall₂ (Accepts app a m change) ids ps) (member : p ∈ ps) :
    ∃ i, Accepts app a m change i p := by
  induction accepted with
  | nil => cases member
  | cons first _ inductionHypothesis =>
    cases List.mem_cons.mp member with
    | inl here => exact ⟨_, here ▸ first⟩
    | inr later => exact inductionHypothesis later

theorem safe_of_repeats (live : app.view.Live) (accepted : List.Forall₂ (Accepts app a m change) ids ps)
    (repeats : ∀ p, 2 ≤ ps.count p → change.Stays (app.order p)) : app.Safe a m change ids := by
  refine .inr (.inr fun id twice p found => repeats p ?_)
  have member : id ∈ ids := List.count_pos_iff.mp (by omega)
  obtain ⟨q, accepts⟩ := accepted_of_mem accepted member
  obtain rfl : q = p := Option.some.inj (accepts.found.symm.trans found)
  rwa [← count_accepts live accepted accepts]

theorem changeByIds_atomic (inv : app.Inv) (a : Symbol) (m : Int) (change : Change) (ids : List Int) (now : Int) :
    Atomic app a m change ids now (app.changeByIds a m change ids now) ↔ app.Safe a m change ids := by
  have ended := changeByIds_spec inv a m change ids now
  generalize app.changeByIds a m change ids now = outcome at ended
  cases ended with
  | rejected missing restored => exact iff_of_true (.unchanged restored) (.inl missing)
  | unjournaled accepted full restored =>
    refine iff_of_true (.unchanged restored) (.inr (.inl ?_))
    rw [MsgQueue.createExecs_eq_none, length_reportsOf] at full
    rwa [accepted.length_eq]
  | @committed resp app' ps mq accepted journal repeats changes matches_ execs_ =>
    refine iff_of_true (.committed (accepted.imp fun _ _ accepts => accepts.found) ?_ fun p member => ?_)
      (safe_of_repeats inv.live accepted repeats)
    · rw [show app'.mq = mq from changes.mq]
      exact .of_createExecs journal
    · exact changes.order (by rwa [pairs_snd])
  | @fault ps mq p accepted journal twice closes =>
    refine iff_of_false (by rintro ⟨⟩) ?_
    rintro (⟨id, member, missing⟩ | full | repeats)
    · obtain ⟨q, accepts⟩ := accepted_of_mem accepted member
      exact missing q accepts
    · rw [accepted.length_eq, ← length_reportsOf app.heap change now (app.view.maxId m), ← MsgQueue.createExecs_eq_none,
        journal] at full
      cases full
    · obtain ⟨i, accepts⟩ := accepted_of_mem_orders accepted (List.count_pos_iff.mp (show 0 < ps.count p by omega))
      exact closes (repeats i (by rwa [count_accepts inv.live accepted accepts]) _ accepts.found)

theorem archiveTrades_atomic (app : App) (a : Symbol) (m : Int) {ids : List Int} (nonempty : ids ≠ []) (now : Int) :
    AtomicArchive app a m ids (app.archiveTrades a m ids now) ↔ app.SafeArchive a m ids := by
  have ended := archiveTrades_spec app a m ids now
  generalize app.archiveTrades a m ids now = outcome at ended
  cases ended with
  | rejected missing => exact iff_of_true .unchanged (.inl missing)
  | unjournaled found full =>
    exact iff_of_true .unchanged (.inr (.inl ((MsgQueue.archiveTrades_eq_none nonempty).mp full)))
  | committed found journal nodup view execs matches_ execs_ =>
    refine iff_of_true (.committed ?_ fun id member => ⟨found id member, ?_⟩) (.inr (.inr nodup))
    · rw [← MsgQueue.archived_archiveTrades journal]
      exact congrArg MsgQueue.archived (congrArg View.mq view)
    · rw [view, find_archive, if_pos ⟨rfl, List.mem_map_of_mem member⟩]
  | fault found journal repeats =>
    refine iff_of_false (by rintro ⟨⟩) ?_
    rintro (⟨id, member, missing⟩ | full | nodup)
    · have present := found id member
      rw [missing] at present
      cases present
    · have refused : app.mq.archiveTrades m ids now = none := (MsgQueue.archiveTrades_eq_none nonempty).mpr full
      rw [journal] at refused
      cases refused
    · exact repeats nodup

/-- In every state of a run, the bulk calls are atomic exactly when no repeated id goes through the checks, the journal
and a first removal. -/
theorem bulk_atomic_iff {capacity maxExecs : Nat} {ops : List Op} {app : App}
    (run : Run App.step (fun _ _ => True) (App.make capacity maxExecs) ops app) (a : Symbol) (m : Int) (ids : List Int)
    (nonempty : ids ≠ []) (now : Int) :
    (∀ change, Atomic app a m change ids now (app.changeByIds a m change ids now) ↔ app.Safe a m change ids) ∧
      (AtomicArchive app a m ids (app.archiveTrades a m ids now) ↔ app.SafeArchive a m ids) :=
  ⟨fun change => changeByIds_atomic ((Inv.make _ _).run run) a m change ids now, archiveTrades_atomic app a m nonempty now⟩

/-- An order that is cancelled by a list with its id alone. -/
theorem bulk_atomic_iff_one :
    let a : Symbol := .assign (bytes "MARAYL")
    let m := toMarketId 1 0
    ∃ app, Run App.step (fun _ _ => True) (App.make 16 16)
        [.createMarket 1 (.assign (bytes "EURUSD")) 0 0 0, .createOrder a m [] .sell 10 100 0 7 0] app ∧
      Atomic app a m .cancel [1] 8 (app.changeByIds a m .cancel [1] 8) := by
  intro a m
  have made : ∃ app, app ∈ Run.exec App.step (fun _ _ => True) (App.make 16 16)
      [.createMarket 1 (.assign (bytes "EURUSD")) 0 0 0, .createOrder a m [] .sell 10 100 0 7 0] :=
    Option.isSome_iff_exists.mp (by decide)
  obtain ⟨app, done⟩ := made
  refine ⟨app, .of_exec done, ((bulk_atomic_iff (.of_exec done) a m [1] (by decide) 8).1 .cancel).mpr ?_⟩
  refine .inr (.inr fun id twice => ?_)
  have once : [(1 : Int)].count id ≤ 1 := List.count_le_length
  omega

/-- A list that repeats the id of an order: the second cancellation looks up an order that is gone. -/
theorem bulk_repeated_id :
    let a : Symbol := .assign (bytes "MARAYL")
    let m := toMarketId 1 0
    ∃ app, Run App.step (fun _ _ => True) (App.make 16 16)
        [.createMarket 1 (.assign (bytes "EURUSD")) 0 0 0, .createOrder a m [] .sell 10 100 0 7 0] app ∧
      ¬ Atomic app a m .cancel [1, 1] 8 (app.changeByIds a m .cancel [1, 1] 8) := by
  intro a m
  have made : ∃ app ∈ Run.exec App.step (fun _ _ => True) (App.make 16 16)
      [.createMarket 1 (.assign (bytes "EURUSD")) 0 0 0, .createOrder a m [] .sell 10 100 0 7 0],
      (app.changeByIds a m .cancel [1, 1] 8).state = none := by decide
  obtain ⟨app, done, fault⟩ := made
  refine ⟨app, .of_exec done, fun atomic => ?_⟩
  generalize app.changeByIds a m .cancel [1, 1] 8 = outcome at atomic fault
  cases atomic with
  | unchanged => cases fault
  | committed => cases fault

end Swirly.App
