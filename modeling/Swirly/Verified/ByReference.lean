import Swirly.Verified.App.References

/-!
# Changes by reference

`revise_order` and `cancel_order` by reference do not look at the market of the order that they find.  They agree with
the overloads by id exactly when every order that the reference names is in the market that the call names.
-/

namespace Swirly

open Function MarketSide

namespace App

variable {app : App} {a : Symbol} {m now : Int} {ref : Bytes} {change : Change} {p : OrderPtr}

/-- The reference names an open order of the account. -/
structure Refers (app : App) (a : Symbol) (ref : Bytes) (p : OrderPtr) : Prop where
  nonempty : ref ≠ []
  ref : (app.order p).ref.data = ref
  accnt : (app.order p).accnt = a
  listed : p ∈ (app.view.side (app.order p).marketId (app.order p).side).orders

end App

/-- Outcomes that a caller cannot tell apart: the same result and state, or the same kind of exception. -/
inductive Outcome.Alike {α : Type} : Outcome α → Outcome α → Prop
  | ok (result : α) (app : App) : Alike (.ok result app) (.ok result app)
  | throw {e e' : Exception} (app : App) (kind : e.kind = e'.kind) : Alike (.throw e app) (.throw e' app)

namespace App

variable {app : App} {a : Symbol} {m now : Int} {ref : Bytes} {change : Change} {p : OrderPtr}

/-- The call by reference does what the call by the id of the order in this market does. -/
structure Agrees (app : App) (a : Symbol) (m : Int) (change : Change) (ref : Bytes) (now : Int) : Prop where
  found : ∀ p, app.Refers a ref p → (app.order p).marketId = m →
    (app.changeByRef a m change ref now).Alike (app.changeById a m change (app.order p).id now)
  missing : (∀ p, app.Refers a ref p → (app.order p).marketId ≠ m) →
    ∃ e, app.changeByRef a m change ref now = .throw e app ∧ e.kind = .orderNotFound

/-- The index finds the orders that the reference names. -/
theorem Refers.find (filed : app.view.RefsFiled) (refers : app.Refers a ref p) : (app.view.refs a).find ref = some p := by
  have found := filed _ _ p refers.listed (by rw [show app.view.heap.order p = app.order p from rfl, refers.ref]; exact refers.nonempty)
  rw [show app.view.heap.order p = app.order p from rfl, refers.accnt, refers.ref] at found
  exact found

theorem refers_of_find (inv : app.Inv) (found : (app.view.refs a).find ref = some p) : app.Refers a ref p := by
  obtain ⟨nonempty, sameRef, accnt, listed⟩ := inv.live.refs a ref p found
  exact ⟨nonempty, sameRef, accnt, listed⟩

/-- The kinds of the exceptions that a change throws once its order is found. -/
theorem Change.check_kind {o : Order} {e : Exception} (checked : change.check o = some e) : e.kind ≠ .orderNotFound := by
  rw [check] at checked
  split at checked
  next =>
    cases checked
    rintro ⟨⟩
  next =>
    cases change with
    | cancel => cases checked
    | revise lots =>
      rw [reject] at checked
      split at checked
      next =>
        cases checked
        rintro ⟨⟩
      next => cases checked

theorem Ended.alike {outcome : Outcome Response} (ended : Ended app m change p now outcome)
    (here : (app.order p).marketId = m) : outcome.Alike outcome := by
  cases ended with
  | rejected => exact .throw _ rfl
  | unjournaled => exact .throw _ rfl
  | committed => exact .ok _ _
  | fault _ elsewhere => exact absurd here elsewhere

/-- Once its order is found, a change does not end as not found. -/
theorem Ended.found {outcome : Outcome Response} (ended : Ended app m change p now outcome) {e : Exception} {app' : App}
    (thrown : outcome = .throw e app') : e.kind ≠ .orderNotFound := by
  cases ended with
  | rejected checked =>
    cases thrown
    exact Change.check_kind checked
  | unjournaled =>
    cases thrown
    nofun
  | committed => cases thrown
  | fault => cases thrown

theorem changeByRef_found (found : (app.view.refs a).find ref = some p) :
    app.changeByRef a m change ref now = app.changeOrder a m change p now := by
  rw [changeByRef, show (app.sess a).refIdx.find ref = some p from found]

theorem changeByRef_missing (missing : (app.view.refs a).find ref = none) :
    app.changeByRef a m change ref now = .throw (.orderRefNotFound ref) app := by
  rw [changeByRef, show (app.sess a).refIdx.find ref = none from missing]

/-- In every state of a run, the two overloads agree exactly when the reference names no order of another market. -/
theorem changeByRef_agrees_iff {capacity maxExecs : Nat} {ops : List Op} {app : App}
    (run : Run App.step (fun _ op => op.ShortRef) (App.make capacity maxExecs) ops app) (a : Symbol) (m : Int)
    (change : Change) (ref : Bytes) (now : Int) :
    app.Agrees a m change ref now ↔ ∀ p, app.Refers a ref p → (app.order p).marketId = m := by
  obtain ⟨inv, filed⟩ := Inv.refsFiled_run (.make _ _) (refsFiled_make _ _) (fun _ _ short => short) run
  constructor
  · intro agrees p refers
    by_contra elsewhere
    have found := refers.find filed
    -- The index has no other order under the reference, so the claim asks for an exception.
    have missing : ∀ q, app.Refers a ref q → (app.order q).marketId ≠ m := fun q other => by
      obtain rfl : p = q := Option.some.inj (found.symm.trans (other.find filed))
      exact elsewhere
    obtain ⟨e, thrown, kind⟩ := agrees.missing missing
    rw [changeByRef_found found] at thrown
    exact (changeOrder_spec inv ⟨refers.accnt, refers.listed⟩ m change now).found thrown kind
  · intro inMarket
    refine ⟨fun p refers here => ?_, fun missing => ?_⟩
    · have byId : app.changeById a m change (app.order p).id now = app.changeOrder a m change p now := by
        have filedId : (app.sess a).orders.find (idKey m (app.order p).id) = some p :=
          inv.live.find_iff.mpr ⟨refers.accnt, by rw [Request.key]; exact idKey_inj.mpr ⟨here, rfl⟩, refers.listed⟩
        rw [changeById, filedId]
      rw [byId, changeByRef_found (refers.find filed)]
      exact (changeOrder_spec inv ⟨refers.accnt, refers.listed⟩ m change now).alike here
    · refine ⟨_, changeByRef_missing ?_, rfl⟩
      cases found : (app.view.refs a).find ref with
      | none => rfl
      | some p =>
        have refers := refers_of_find inv found
        exact absurd (inMarket p refers) (missing p refers)

/-- An order that is cancelled by its reference in its own market. -/
theorem changeByRef_agrees_iff_own :
    let a : Symbol := .assign (bytes "MARAYL")
    let m := toMarketId 1 0
    ∃ app, Run App.step (fun _ op => op.ShortRef) (App.make 16 16)
        [.createMarket 1 (.assign (bytes "EURUSD")) 0 0 0, .createOrder a m (bytes "apple") .sell 10 100 0 7 0] app ∧
      (app.view.refs a).find (bytes "apple") = some 0 ∧ app.Agrees a m .cancel (bytes "apple") 8 := by
  intro a m
  have made : ∃ app ∈ Run.exec App.step (fun _ op => op.ShortRef) (App.make 16 16)
      [.createMarket 1 (.assign (bytes "EURUSD")) 0 0 0, .createOrder a m (bytes "apple") .sell 10 100 0 7 0],
      (app.view.refs a).find (bytes "apple") = some 0 ∧ (app.order 0).marketId = m := by decide
  obtain ⟨app, done, found, here⟩ := made
  have run := Run.of_exec done
  obtain ⟨inv, filed⟩ := Inv.refsFiled_run (.make _ _) (refsFiled_make _ _) (fun _ _ short => short) run
  refine ⟨app, run, found, (changeByRef_agrees_iff run a m .cancel (bytes "apple") 8).mpr fun p refers => ?_⟩
  obtain rfl : 0 = p := Option.some.inj (found.symm.trans (refers.find filed))
  exact here

/-- An order of one market is revised by its reference through another market. -/
theorem changeByRef_other_market :
    let a : Symbol := .assign (bytes "MARAYL")
    let m := toMarketId 1 0
    let n := toMarketId 2 0
    ∃ app, Run App.step (fun _ op => op.ShortRef) (App.make 16 16)
        [.createMarket 1 (.assign (bytes "EURUSD")) 0 0 0, .createMarket 2 (.assign (bytes "GBPUSD")) 0 0 0,
          .createOrder a m (bytes "apple") .sell 10 100 0 7 0] app ∧
      ¬ app.Agrees a n (.revise 5) (bytes "apple") 8 := by
  intro a m n
  have made : ∃ app ∈ Run.exec App.step (fun _ op => op.ShortRef) (App.make 16 16)
      [.createMarket 1 (.assign (bytes "EURUSD")) 0 0 0, .createMarket 2 (.assign (bytes "GBPUSD")) 0 0 0,
        .createOrder a m (bytes "apple") .sell 10 100 0 7 0],
      (app.view.refs a).find (bytes "apple") = some 0 ∧ (app.order 0).marketId ≠ n ∧
        ((app.changeByRef a n (.revise 5) (bytes "apple") 8).returned).isSome := by decide
  obtain ⟨app, done, found, elsewhere, ok⟩ := made
  have run := Run.of_exec done
  obtain ⟨inv, filed⟩ := Inv.refsFiled_run (.make _ _) (refsFiled_make _ _) (fun _ _ short => short) run
  refine ⟨app, run, fun agrees => ?_⟩
  obtain ⟨e, thrown, -⟩ := agrees.missing fun p refers => by
    obtain rfl : 0 = p := Option.some.inj (found.symm.trans (refers.find filed))
    exact elsewhere
  rw [thrown] at ok
  cases ok

end App

end Swirly
