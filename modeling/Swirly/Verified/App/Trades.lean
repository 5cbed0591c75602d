import Swirly.Verified.App.Filing

/-!
# The indexes of trades

Trades take their ids from the counter of their own market, so no two of them share a key.  The index of a session
holds trades of its account, under their keys.
-/

namespace Swirly.App

open Function

variable {app app' : App} {op : Op} {news : List Exec} {es : List ExecPtr} {m : Int}

/-- The execution of a trade. -/
structure Trade (app : App) (e : ExecPtr) : Prop where
  present : (app.execs.find e).isSome
  state : (app.exec e).state = .trade

structure TradesSound (app : App) : Prop where
  bounded : ∀ e, app.Trade e → 1 ≤ (app.exec e).id ∧ (app.exec e).id ≤ app.view.maxId (app.exec e).marketId
  unique : ∀ d e, app.Trade d → app.Trade e → (app.exec d).key = (app.exec e).key → d = e
  indexed : ∀ a k e, (app.view.trades a).find k = some e → app.Trade e ∧ (app.exec e).accnt = a ∧ (app.exec e).key = k

/-- An execution after a call was there before, or it is one of the new reports. -/
theorem Filed.classify (filed : Filed app app' news es) {e : Nat} (present : (app'.execs.find e).isSome) :
    (e < app.execs.fresh ∧ (app.execs.find e).isSome ∧ (app'.exec e).unstamped = (app.exec e).unstamped) ∨
    ∃ (i : Nat) (x : Exec), e = app.execs.fresh + i ∧ news[i]? = some x ∧ (app'.exec e).unstamped = x.unstamped := by
  by_cases old : e < app.execs.fresh
  · exact .inl ⟨old, (filed.old old).1.symm.trans present, (filed.old old).2⟩
  · obtain ⟨i, rfl⟩ := Nat.exists_eq_add_of_le (not_lt.mp old)
    have below : app.execs.fresh + i < (app.execs.allocs news).fresh := by
      obtain ⟨x, found⟩ := Option.isSome_iff_exists.mp ((filed.entered.live _).symm.trans present)
      exact OrdMap.lt_fresh found
    rw [OrdMap.fresh_allocs] at below
    have inside : i < news.length := by omega
    refine .inr ⟨i, news[i], rfl, List.getElem?_eq_getElem inside, (filed.entered.unstamped _).trans ?_⟩
    have found := OrdMap.find_allocs_fresh app.execs news (List.getElem?_eq_getElem inside)
    exact congrArg Exec.unstamped (OrdMap.get_of_find found)

/-- The report that a call has stored. -/
theorem Filed.stored (filed : Filed app app' news es) {i : Nat} {x : Exec} (at_i : news[i]? = some x) :
    (app'.execs.find (app.execs.fresh + i)).isSome ∧ ∃ lots cost, app'.exec (app.execs.fresh + i) = x.posn lots cost := by
  have found := OrdMap.find_allocs_fresh app.execs news at_i
  constructor
  · rw [show (app'.execs.find _).isSome = ((app.execs.allocs news).find _).isSome from filed.entered.live _, found]
    rfl
  · obtain ⟨lots, cost, same⟩ := filed.exec (app.execs.fresh + i)
    rw [same, show (app.view.ledger (app.execs.allocs news)).exec _ = x from OrdMap.get_of_find found]
    exact ⟨lots, cost, rfl⟩

/-- A trade after a call was one before, or it has a new id of its market. -/
theorem Numbered.classify (numbered : Numbered app app' news m) (filed : Filed app app' news es) {e : Nat}
    (trade : app'.Trade e) :
    (e < app.execs.fresh ∧ app.Trade e ∧ (app'.exec e).unstamped = (app.exec e).unstamped) ∨
    ∃ i : Nat, e = app.execs.fresh + i ∧ i < news.length ∧ (app'.exec e).marketId = m ∧
      (app'.exec e).id = app.view.maxId m + 1 + i := by
  cases filed.classify trade.present with
  | inl old =>
    obtain ⟨below, present, same⟩ := old
    refine .inl ⟨below, ⟨present, ?_⟩, same⟩
    have state := trade.state
    rw [Exec.eq_posn same] at state
    exact state
  | inr new =>
    obtain ⟨i, x, rfl, at_i, same⟩ := new
    have state := trade.state
    rw [Exec.eq_posn same] at state ⊢
    have market := numbered.market x (List.mem_of_getElem? at_i) state
    exact .inr ⟨i, rfl, (List.getElem?_eq_some_iff.mp at_i).1, market, numbered.ids i x at_i⟩

theorem Numbered.grown (numbered : Numbered app app' news m) (n : Int) : app.view.maxId n ≤ app'.view.maxId n := by
  rw [numbered.maxId]
  exact grown_update (by omega) n

/-- A new trade has a key that no trade had before. -/
theorem TradesSound.fresh_key (sound : app.TradesSound) {d : ExecPtr} (old : app.Trade d) {x : Exec} {i : Nat}
    (market : x.marketId = m) (id : x.id = app.view.maxId m + 1 + i) : (app.exec d).key ≠ x.key := fun same => by
  obtain ⟨sameMarket, sameId⟩ := idKey_inj.mp same
  have bounded := (sound.bounded d old).2
  rw [sameMarket, sameId, market, id] at bounded
  omega

theorem TradesSound.unique_step (sound : app.TradesSound) (filed : Filed app app' news es)
    (numbered : Numbered app app' news m) {d e : Nat} (tradeD : app'.Trade d) (tradeE : app'.Trade e)
    (same : (app'.exec d).key = (app'.exec e).key) : d = e := by
  cases numbered.classify filed tradeD with
  | inl oldD =>
    have keyD : (app'.exec d).key = (app.exec d).key := by rw [Exec.eq_posn oldD.2.2]; rfl
    cases numbered.classify filed tradeE with
    | inl oldE =>
      have keyE : (app'.exec e).key = (app.exec e).key := by rw [Exec.eq_posn oldE.2.2]; rfl
      exact sound.unique d e oldD.2.1 oldE.2.1 (keyD.symm.trans (same.trans keyE))
    | inr newE =>
      obtain ⟨i, -, -, market, id⟩ := newE
      exact absurd (keyD.symm.trans same) (sound.fresh_key oldD.2.1 market id)
  | inr newD =>
    obtain ⟨i, rfl, -, marketD, idD⟩ := newD
    cases numbered.classify filed tradeE with
    | inl oldE =>
      have keyE : (app'.exec e).key = (app.exec e).key := by rw [Exec.eq_posn oldE.2.2]; rfl
      exact absurd (keyE.symm.trans same.symm) (sound.fresh_key oldE.2.1 marketD idD)
    | inr newE =>
      obtain ⟨j, rfl, -, marketE, idE⟩ := newE
      have sameId := (idKey_inj.mp same).2
      rw [idD, idE] at sameId
      omega

/-- The index after a call that files trades. -/
theorem TradesSound.find_trades (sound : app.TradesSound) (filed : Filed app app' news es)
    (numbered : Numbered app app' news m) (a : Symbol) (k : IdKey) (e : ExecPtr) :
    (app'.view.trades a).find k = some e ↔ (app.view.trades a).find k = some e ∨
      (e ∈ es ∧ (app'.exec e).state = .trade ∧ (app'.exec e).accnt = a ∧ (app'.exec e).key = k) := by
  have exec : ∀ d, (app.view.ledger (app.execs.allocs news)).exec d =
      (app'.exec d).posn ((app.view.ledger (app.execs.allocs news)).exec d).posnLots
        ((app.view.ledger (app.execs.allocs news)).exec d).posnCost :=
    fun d => Exec.eq_posn (filed.entered.unstamped d).symm
  have new : ∀ d : Nat, d ∈ es → app.execs.fresh ≤ d ∧ (app'.execs.find d).isSome := fun d member => by
    have address := filed.addresses.mem_iff.mp member
    obtain ⟨i, -, here⟩ := List.mem_map.mp address
    exact ⟨here ▸ Nat.le_add_right _ i, (filed.entered.live d).trans (app.present_newAddresses news d address)⟩
  rw [show app'.view.trades = app'.ledger.trades from rfl, filed.entered.trades, find_insertTrades]
  · rw [exec e]
    rfl
  · intro d member trade
    rw [exec d] at trade ⊢
    cases found : (app.view.trades (app'.exec d).accnt).find (app'.exec d).key with
    | none => exact found
    | some c =>
      obtain ⟨old, -, key⟩ := sound.indexed _ _ c found
      cases numbered.classify filed ⟨(new d member).2, trade⟩ with
      | inl before => exact absurd before.1 (not_lt.mpr (new d member).1)
      | inr after =>
        obtain ⟨i, -, -, market, id⟩ := after
        exact absurd key (sound.fresh_key old market id)
  · have nodup : es.Nodup := filed.addresses.nodup_iff.mpr (app.nodup_newAddresses _)
    refine List.Pairwise.imp_of_mem (fun {c d} memberC memberD differ tradeC tradeD same => differ ?_) nodup
    rw [exec c] at tradeC same
    rw [exec d] at tradeD same
    exact sound.unique_step filed numbered ⟨(new c memberC).2, tradeC⟩ ⟨(new d memberD).2, tradeD⟩ same

theorem TradesSound.filed (inv : app.Inv) (sound : app.TradesSound) (filed : Filed app app' news es)
    (numbered : Numbered app app' news m) : app'.TradesSound where
  bounded e trade := by
    cases numbered.classify filed trade with
    | inl old =>
      obtain ⟨positive, bounded⟩ := sound.bounded e old.2.1
      rw [Exec.eq_posn old.2.2]
      exact ⟨positive, bounded.trans (numbered.grown _)⟩
    | inr new =>
      obtain ⟨i, -, small, market, id⟩ := new
      have nonneg := inv.ids.nonneg m
      rw [market, id, numbered.maxId, update_self]
      omega
  unique d e tradeD tradeE same := sound.unique_step filed numbered tradeD tradeE same
  indexed a k e found := by
    cases (sound.find_trades filed numbered a k e).mp found with
    | inr new =>
      obtain ⟨member, state, accnt, key⟩ := new
      exact ⟨⟨(filed.entered.live e).trans (app.present_newAddresses news e (filed.addresses.mem_iff.mp member)), state⟩,
        accnt, key⟩
    | inl old =>
      obtain ⟨trade, accnt, key⟩ := sound.indexed a k e old
      obtain ⟨x, present⟩ := Option.isSome_iff_exists.mp trade.present
      obtain ⟨live, same⟩ := filed.old (OrdMap.lt_fresh present)
      rw [Exec.eq_posn same]
      refine ⟨⟨live.trans trade.present, ?_⟩, accnt, key⟩
      rw [Exec.eq_posn same]
      exact trade.state

/-- Executions that are the same hold the same trades. -/
theorem Trade.congr (execs : app'.execs = app.execs) : (∀ e, app'.exec e = app.exec e) ∧ ∀ e, app'.Trade e ↔ app.Trade e := by
  have exec : ∀ e, app'.exec e = app.exec e := fun e => congrArg (fun s : Store Exec => s.get e) execs
  refine ⟨exec, fun e => ⟨fun trade => ⟨execs ▸ trade.present, exec e ▸ trade.state⟩,
    fun trade => ⟨execs.symm ▸ trade.present, (exec e).symm ▸ trade.state⟩⟩⟩

theorem TradesSound.of_view (sound : app.TradesSound) (view : app'.view = app.view) (execs : app'.execs = app.execs) :
    app'.TradesSound := by
  obtain ⟨exec, trade⟩ := Trade.congr execs
  exact
    { bounded := fun e tradeE => by
        rw [view, exec]
        exact sound.bounded e ((trade e).mp tradeE)
      unique := fun d e tradeD tradeE same =>
        sound.unique d e ((trade d).mp tradeD) ((trade e).mp tradeE) (by rwa [exec, exec] at same)
      indexed := fun a k e found => by
        rw [view] at found
        rw [exec, trade]
        exact sound.indexed a k e found }

theorem TradesSound.idle (sound : app.TradesSound) (idle : app.Idle app') : app'.TradesSound := by
  obtain ⟨exec, trade⟩ := Trade.congr idle.execs
  exact
    { bounded := fun e tradeE => by
        rw [exec]
        have bounded := sound.bounded e ((trade e).mp tradeE)
        exact ⟨bounded.1, bounded.2.trans (idle.grown _)⟩
      unique := fun d e tradeD tradeE same =>
        sound.unique d e ((trade d).mp tradeD) ((trade e).mp tradeE) (by rwa [exec, exec] at same)
      indexed := fun a k e found => by
        obtain ⟨tradeE, accnt, key⟩ := sound.indexed a k e (idle.trades a k e found)
        rw [exec]
        exact ⟨(trade e).mpr tradeE, accnt, key⟩ }

/-- A step files nothing, or new reports with the next ids of one market. -/
theorem Filing.cases (filing : Filing app op app') :
    app.Idle app' ∨ ∃ news es m, Filed app app' news es ∧ Numbered app app' news m := by
  cases filing with
  | idle idle => exact .inl idle
  | created incoming made filed stamped numbered => exact .inr ⟨_, _, _, filed, numbered⟩
  | changed own made filed stamped numbered => exact .inr ⟨_, _, _, filed, numbered⟩
  | oneSided made alone filed execs numbered => exact .inr ⟨_, _, _, filed, numbered⟩
  | twoSided made opposite paired room filed execs numbered => exact .inr ⟨_, _, _, filed, numbered⟩

theorem TradesSound.step (inv : app.Inv) (sound : app.TradesSound) (stepped : app.step op = some app') :
    app'.TradesSound := by
  cases (step_filing inv stepped).cases with
  | inl idle => exact sound.idle idle
  | inr reported =>
    obtain ⟨news, es, m, filed, numbered⟩ := reported
    exact sound.filed inv filed numbered

theorem tradesSound_make (capacity maxExecs : Nat) : (App.make capacity maxExecs).TradesSound where
  bounded _ trade := by cases trade.present
  unique _ _ trade := by cases trade.present
  indexed _ _ _ found := by cases found

theorem Inv.trades_run {Allowed : App → Op → Prop} {ops : List Op} (inv : app.Inv) (sound : app.TradesSound)
    (run : Run App.step Allowed app ops app') : app'.Inv ∧ app'.TradesSound :=
  run.invariant (I := fun app => app.Inv ∧ app.TradesSound)
    (fun _ _ _ kept _ stepped => ⟨kept.1.step stepped, kept.2.step kept.1 stepped⟩) ⟨inv, sound⟩

end Swirly.App
