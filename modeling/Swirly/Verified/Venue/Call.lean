import Swirly.Verified.Indexes
import Swirly.Verified.MarketIds
import Swirly.Verified.Venue.Change

/-!
# The calls of the exchange

Every call of the engine answers as the venue does and leaves the state that the venue leaves.  A run of the engine is
therefore a run of the venue, and what a client can learn from the one it can learn from the other.
-/

namespace Swirly

open Function MarketSide

/-! ## Trades and markets

A manual trade that meets a full queue uses up one id, or two when it names a counter-party. -/

theorem MsgQueue.archiveTrades_single (mq : MsgQueue) (m id now : Int) : mq.archiveTrades m [id] now = mq.archiveTrade m id now := by
  have one : steps [id].length = 1 := by simp [steps, maxIds]
  rw [archiveTrades, one]
  by_cases full : mq.reserve < 1
  · have size : ¬ mq.size < mq.capacity := by
      rw [reserve] at full
      omega
    rw [if_pos full, archiveTrade, doArchiveTrade, post, if_neg size]
  · rw [if_neg full]
    rfl

namespace App

variable {app app' : App} {a cpty : Symbol} {m now : Int} {ref : Bytes} {side : Side} {lots ticks created : Int}
  {liqInd : LiqInd} {ids : List Int} {terms : Symbol × Int × Nat}

/-! ## Manual trades -/

/-- A call that throws has met a full queue, and has given out the ids of its trades. -/
theorem createTrade_thrown {e : Exception} {last : App} {trade : Exec}
    (made : trade = app.manualTrade a m ref side lots ticks liqInd cpty created)
    (thrown : app.createTrade a m ref side lots ticks liqInd cpty created = .throw e last) :
    e = .insufficientQueueCapacity ∧
      if cpty.isEmpty then app.mq.createExec trade = none ∧ last.view.maxId m = app.view.maxId m + 1
      else app.mq.createExecs [trade, trade.opposite (app.view.maxId m + 2)] = none ∧
        last.view.maxId m = app.view.maxId m + 2 := by
  have posn : (app.ensurePosn a m).posn (a, m) = app.view.posn a m :=
    congrFun (congrFun (congrArg View.posn (view_ensurePosn a m)) a) m
  obtain ⟨app₁, first⟩ : ∃ app₁, app₁ = (((app.ensurePosn a m).allocId m).2.newExec trade).2 := ⟨_, rfl⟩
  obtain ⟨app₂, second⟩ : ∃ app₂, app₂ = (app₁.ensureSess cpty).ensurePosn cpty m := ⟨_, rfl⟩
  obtain ⟨app₃, third⟩ : ∃ app₃, app₃ = ((app₂.allocId m).2.newExec (trade.opposite (app₂.allocId m).1)).2 := ⟨_, rfl⟩
  have maxId₁ : app₁.view.maxId m = app.view.maxId m + 1 := by
    rw [first, view_newExec, view_allocId, view_ensurePosn]
    exact update_self _ _ _
  have view₂ : app₂.view = app₁.view := by rw [second, view_ensurePosn, view_ensureSess]
  have id₂ : (app₂.allocId m).1 = app.view.maxId m + 2 := by
    show app₂.view.maxId m + 1 = _
    rw [view₂, maxId₁]
    omega
  have maxId₃ : app₃.view.maxId m = app.view.maxId m + 2 := by
    rw [third, view_newExec, view_allocId, ← id₂]
    exact update_self _ _ _
  have eq := createTrade_eq (show trade = _ by rw [made, posn]; rfl) first second third
  rw [eq] at thrown
  split at thrown
  next alone =>
    rw [if_pos alone]
    split at thrown
    next full =>
      cases thrown
      refine ⟨rfl, ?_, maxId₁⟩
      rw [← full, first]
      rfl
    next => cases thrown
  next paired =>
    rw [if_neg paired]
    split at thrown
    next full =>
      cases thrown
      refine ⟨rfl, ?_, maxId₃⟩
      rw [← full, id₂, third, second, first]
      rfl
    next => cases thrown

theorem manualTrade_venue (known : app.terms m = some terms) :
    Exec.makeManual m terms.1 terms.2.1 (app.venue.maxId m + 1) a ref side lots ticks (app.venue.posn a m).netLots
      (app.venue.posn a m).netCost liqInd cpty created = app.manualTrade a m ref side lots ticks liqInd cpty created := by
  obtain ⟨instr, settlDay, -⟩ := market_of_terms known
  rw [manualTrade, instr, settlDay]
  rfl

theorem createTrade_venue (inv : app.Inv) (reported : app.view.Reported) (known : app.terms m = some terms)
    (kept : ∀ last, (app.createTrade a m ref side lots ticks liqInd cpty created).state = some last → last.terms = app.terms) :
    ((app.createTrade a m ref side lots ticks liqInd cpty created).map fun (trade, cptyTrade) => .trades trade cptyTrade).seen =
      some (app.venue.createTrade a m terms ref side lots ticks liqInd cpty created) := by
  have traded := createTrade_spec inv a m ref side lots ticks liqInd cpty created
  obtain ⟨trade, made⟩ : ∃ trade, trade = app.manualTrade a m ref side lots ticks liqInd cpty created := ⟨_, rfl⟩
  have fresh : app.view.reports.fresh = app.execs.fresh := OrdMap.fresh_map _ app.execs
  -- The reports of the call, filed over the venue as it was.
  have start : ∀ (mq : MsgQueue) (n : Nat) (es : List Exec), View.venue { app.view with
      mq, maxId := update app.view.maxId m (app.view.maxId m + n), reports := app.view.reports.allocs es } app.terms =
        { app.venue.burn m n with mq } := by
    intro mq n es
    have given : ({ app.view with mq, maxId := update app.view.maxId m (app.view.maxId m + n) } : View).Reported :=
      ⟨reported.history, reported.trades⟩
    exact View.venue_allocs app.terms given es
  rw [← made] at traded
  rw [Venue.createTrade, manualTrade_venue known, ← made]
  cases outcome : app.createTrade a m ref side lots ticks liqInd cpty created with
  | fault =>
    rw [outcome] at traded
    cases traded
  | throw e last =>
    obtain ⟨rfl, full⟩ := createTrade_thrown made outcome
    have terms := kept last (by rw [outcome]; rfl)
    rw [outcome] at traded
    cases traded with
    | @unjournaled _ n restored =>
      have given : last.view.maxId m = app.view.maxId m + n := by
        rw [restored.view]
        exact update_self _ _ _
      have burnt : last.venue = app.venue.burn m n := by
        rw [venue, terms]
        exact restored.venue _ rfl
      rw [Outcome.map, Outcome.seen, burnt]
      by_cases alone : cpty.isEmpty = true
      · rw [if_pos alone] at full ⊢
        obtain rfl : n = 1 := by omega
        rw [show app.venue.mq = app.mq from rfl, full.1]
      · rw [if_neg alone] at full ⊢
        obtain rfl : n = 2 := by omega
        simp only [show app.venue.mq = app.mq from rfl, show app.venue.maxId m = app.view.maxId m from rfl, full.1]
  | ok result last =>
    have terms := kept last (by rw [outcome]; rfl)
    rw [outcome] at traded
    cases traded with
    | @oneSided _ mq alone journal view matches_ execs_ execs =>
      have first : (app.view.reports.alloc trade.unstamped).get app.execs.fresh = trade.posn 0 0 := by
        rw [← fresh]
        exact OrdMap.get_put_self _ _ _
      have filed : last.venue = ({ app.venue with mq }.burn m 1).file a m (trade.posn 0 0) := by
        rw [venue, terms, view, View.venue_fileTrade, View.report, first]
        congr 1
        exact start mq 1 [trade.unstamped]
      have answer : last.view.report app.execs.fresh = trade.posn 0 0 := by
        rw [view, View.report, View.reports_fileTrade]
        exact first
      rw [if_pos alone, show app.venue.mq = app.mq from rfl, journal, Outcome.map, Outcome.seen, filed]
      simp only [App.answer, answer, Option.map_none]
    | @twoSided _ mq paired journal view matches_ execs_ execs =>
      obtain ⟨cptyTrade, paired_with⟩ : ∃ cptyTrade, cptyTrade = trade.opposite (app.view.maxId m + 2) := ⟨_, rfl⟩
      rw [← paired_with] at view journal
      have both := OrdMap.map_get_allocs app.view.reports [trade.unstamped, cptyTrade.unstamped]
      rw [fresh] at both
      obtain ⟨first, rest⟩ := List.cons.inj both
      obtain ⟨second, -⟩ := List.cons.inj rest
      have first : (app.view.reports.allocs [trade.unstamped, cptyTrade.unstamped]).get app.execs.fresh = trade.posn 0 0 := first
      have second : (app.view.reports.allocs [trade.unstamped, cptyTrade.unstamped]).get (app.execs.fresh + 1) =
          cptyTrade.posn 0 0 := second
      have filed : last.venue =
          (({ app.venue with mq }.burn m 2).file cpty m (cptyTrade.posn 0 0)).file a m (trade.posn 0 0) := by
        rw [venue, terms, view, View.venue_fileTrade, View.venue_fileTrade, View.report, View.report, View.reports_fileTrade,
          first, second]
        congr 2
        exact start mq 2 [trade.unstamped, cptyTrade.unstamped]
      have answers : last.view.report app.execs.fresh = trade.posn 0 0 ∧
          last.view.report (app.execs.fresh + 1) = cptyTrade.posn 0 0 := by
        rw [view, View.report, View.report, View.reports_fileTrade, View.reports_fileTrade]
        exact ⟨first, second⟩
      simp only [paired, Bool.false_eq_true, if_false, show app.venue.mq = app.mq from rfl,
        show app.venue.maxId m = app.view.maxId m from rfl, ← paired_with, journal, Outcome.map, Outcome.seen, filed,
        App.answer, answers, Option.map_some]

/-! ## Archiving -/

theorem trades_archive (listed : Int → Option (Symbol × Int × Nat)) (v : View) (a : Symbol) (m : Int) (ids : List Int) :
    (archive v a m ids).venue listed = (v.venue listed).unfile a m ids := by
  have fields : (archive v a m ids).venue listed = { v.venue listed with
      trades := fun b k => (((archive v a m ids).trades b).find k).map v.report } := rfl
  rw [fields]
  refine Venue.ext rfl rfl rfl rfl rfl rfl rfl (funext fun b => funext fun k => ?_) rfl
  simp only [Venue.unfile]
  rw [find_archive, update_apply]
  by_cases here : b = a
  · rw [if_pos here, here]
    by_cases archived : k ∈ ids.map (idKey m)
    · simp [archived]
    · simp [archived, View.venue]
  · rw [if_neg here, if_neg fun both => here both.1]
    rfl

theorem isNone_trades (k : IdKey) : (app.venue.trades a k).isNone = ((app.sess a).trades.find k).isNone := by
  show (((app.view.trades a).find k).map app.view.report).isNone = _
  rw [Option.isNone_map]
  rfl

theorem archiveTrades_venue (nodup : ids.Nodup)
    (kept : ∀ last, (app.archiveTrades a m ids now).state = some last → last.terms = app.terms) :
    ((app.archiveTrades a m ids now).map fun _ => .done).seen = some (app.venue.archiveTrades a m ids now) := by
  have ended := archiveTrades_spec app a m ids now
  rw [Venue.archiveTrades]
  simp only [isNone_trades]
  cases missing : ids.find? fun id => ((app.sess a).trades.find (idKey m id)).isNone with
  | some id =>
    rw [archiveTrades, missing]
    rfl
  | none =>
    have found : ∀ id ∈ ids, (app.view.trades a).find (idKey m id) ≠ none := fun id member absent =>
      List.find?_eq_none.mp missing id member (Option.isNone_iff_eq_none.mpr absent)
    cases outcome : app.archiveTrades a m ids now with
    | fault =>
      rw [outcome] at ended
      cases ended with
      | fault found journal repeats => exact absurd nodup repeats
    | throw e last =>
      rw [outcome] at ended
      cases ended with
      | rejected absent =>
        obtain ⟨id, member, none_found⟩ := absent
        exact absurd none_found (found id member)
      | unjournaled _ full =>
        rw [show app.venue.mq = app.mq from rfl, full]
        rfl
    | ok result last =>
      have terms := kept last (by rw [outcome]; rfl)
      rw [outcome] at ended
      cases ended with
      | committed _ journal _ view execs matches_ execs_ =>
        rw [show app.venue.mq = app.mq from rfl, journal, Outcome.map, Outcome.seen, venue, terms, view, trades_archive]
        rfl

theorem archiveTrade_venue (sound : app.TradesSound) {id : Int}
    (kept : ∀ last, (app.archiveTrade a m id now).state = some last → last.terms = app.terms) :
    ((app.archiveTrade a m id now).map fun _ => .done).seen = some (app.venue.archiveTrades a m [id] now) := by
  rw [archiveTrade] at kept ⊢
  rw [Venue.archiveTrades]
  simp only [isNone_trades]
  cases found : (app.sess a).trades.find (idKey m id) with
  | none =>
    simp only [List.find?_cons, found, Option.isNone_none]
    rfl
  | some e =>
    simp only [List.find?_cons, List.find?_nil, found, Option.isNone_some]
    obtain ⟨-, -, key⟩ := sound.indexed a _ e found
    obtain ⟨market, own⟩ := idKey_inj.mp key
    rw [found] at kept
    simp only [market, own] at kept ⊢
    rw [MsgQueue.archiveTrades_single, show app.venue.mq = app.mq from rfl]
    cases journal : app.mq.archiveTrade m id now with
    | none =>
      rw [doArchiveTrade, journal]
      rfl
    | some mq =>
      rw [doArchiveTrade, journal] at kept ⊢
      have terms := kept _ rfl
      have view : ({ app with mq }.removeTrade a (idKey m id)).view = archive { app.view with mq } a m [id] := by
        rw [view_removeTrade]
        rfl
      rw [Outcome.map, Outcome.seen, venue, terms, view, trades_archive]
      rfl

end App

/-! ## Terms -/

theorem Commits.terms {a : Symbol} {m now : Int} {s : Side} {xs : List Match} {v v' : View} (commits : Commits a m s now xs v v') :
    v'.terms = v.terms := by
  induction commits with
  | nil => rfl
  | cons first _ inductionHypothesis =>
    obtain ⟨live, h, x, shrinks, rfl⟩ := first
    simpa using inductionHypothesis

namespace App

variable {app app' : App} {a cpty : Symbol} {m now : Int} {ref : Bytes} {side : Side} {lots ticks minLots busDay created : Int}
  {liqInd : LiqInd} {change : Change} {target : Target} {ids : List Int} {id : Int} {p : OrderPtr}

/-! ## The terms of the markets -/

theorem terms_eq (app : App) (n : Int) : app.terms n = (app.listing n).map fun _ => app.view.terms n := by
  rw [App.terms, listing, Option.map_map]
  cases found : app.markets.find n with
  | none => rfl
  | some k =>
    have market : app.market n = k := OrdMap.get_of_find found
    simp [view, market]

/-- A call within a market keeps the terms of all of them. -/
theorem Within.terms (within : Within m app app') (same : app'.view.terms = app.view.terms) : app'.terms = app.terms := by
  funext n
  rw [terms_eq, terms_eq, within.listing, same]

theorem listing_isSome : (app.listing m).isSome = (app.terms m).isSome := by
  rw [terms_eq, Option.isSome_map]

theorem createOrder_terms (inv : app.Inv) {last : App}
    (ends : (app.createOrder a m ref side lots ticks minLots now busDay).state = some last) :
    last.view.terms = app.view.terms := by
  have created := createOrder_spec inv a m ref side lots ticks minLots now busDay
  cases outcome : app.createOrder a m ref side lots ticks minLots now busDay with
  | fault =>
    rw [outcome] at ends
    cases ends
  | throw e next =>
    rw [outcome] at ends created
    cases ends
    cases created with
    | rejected => rfl
    | unjournaled checked full restored => rw [restored.view]
  | ok resp next =>
    rw [outcome] at ends created
    cases ends
    cases created with
    | committed checked opened commits matches_ execs_ ledger response =>
      rw [commits.terms, opened.view]

theorem changeOrder_terms (inv : app.Inv) (held : app.Held a p) {last : App}
    (ends : (app.changeOrder a m change p now).state = some last) : last.view.terms = app.view.terms := by
  have ended := changeOrder_spec inv held m change now
  cases outcome : app.changeOrder a m change p now with
  | fault =>
    rw [outcome] at ends
    cases ends
  | throw e next =>
    rw [outcome] at ends ended
    cases ends
    cases ended with
    | rejected => rfl
    | unjournaled checked full restored => rw [restored.view]
  | ok resp next =>
    rw [outcome] at ends ended
    cases ends
    cases ended with
    | committed checked journal changed matches_ execs_ execs response => exact changed.terms

theorem changeByIds_terms (inv : app.Inv) {last : App} (ends : (app.changeByIds a m change ids now).state = some last) :
    last.view.terms = app.view.terms := by
  have ended := changeByIds_spec inv a m change ids now
  cases outcome : app.changeByIds a m change ids now with
  | fault =>
    rw [outcome] at ends
    cases ends
  | throw e next =>
    rw [outcome] at ends ended
    cases ends
    cases ended with
    | rejected missing restored => rw [restored.view]
    | unjournaled accepted full restored => rw [restored.view]
  | ok resp next =>
    rw [outcome] at ends ended
    cases ends
    cases ended with
    | committed accepted journal repeats changes matches_ execs_ execs response => exact changes.terms

theorem changeTarget_terms (inv : app.Inv) {last : App}
    (ends : (app.changeTarget a m change now target).state = some last) : last.view.terms = app.view.terms := by
  cases target with
  | id id =>
    rw [changeTarget, changeById] at ends
    split at ends
    next =>
      cases ends
      rfl
    next p found =>
      obtain ⟨accnt, key, member⟩ := inv.live.booked a _ p found
      exact changeOrder_terms inv ⟨accnt, member⟩ ends
  | ref ref =>
    rw [changeTarget, changeByRef] at ends
    split at ends
    next =>
      cases ends
      rfl
    next p found =>
      obtain ⟨-, -, accnt, member⟩ := inv.live.refs a _ p found
      exact changeOrder_terms inv ⟨accnt, member⟩ ends
  | ids ids => exact changeByIds_terms inv ends

theorem createTrade_terms (inv : app.Inv) {last : App}
    (ends : (app.createTrade a m ref side lots ticks liqInd cpty created).state = some last) :
    last.view.terms = app.view.terms := by
  have traded := createTrade_spec inv a m ref side lots ticks liqInd cpty created
  cases outcome : app.createTrade a m ref side lots ticks liqInd cpty created with
  | fault =>
    rw [outcome] at ends
    cases ends
  | throw e next =>
    rw [outcome] at ends traded
    cases ends
    cases traded with
    | unjournaled restored => rw [restored.view]
  | ok result next =>
    rw [outcome] at ends traded
    cases ends
    cases traded with
    | oneSided alone journal view => rw [view]; rfl
    | twoSided paired journal view => rw [view]; rfl

theorem Within.archiveTrade (n : Int) (ends : (app.archiveTrade a m id now).state = some app') : Within n app app' := by
  rw [App.archiveTrade] at ends
  split at ends
  next =>
    cases ends
    exact refl n app
  next => exact doArchiveTrade n ends

theorem archiveTrade_terms {last : App} (ends : (app.archiveTrade a m id now).state = some last) :
    last.view.terms = app.view.terms := by
  rw [archiveTrade] at ends
  split at ends
  next =>
    cases ends
    rfl
  next e found =>
    have archived := doArchiveTrade_spec app a (app.exec e).marketId (app.exec e).id now
    generalize app.doArchiveTrade a (app.exec e).marketId (app.exec e).id now = outcome at archived ends
    cases archived with
    | rejected =>
      cases ends
      rfl
    | committed journal view =>
      cases ends
      rw [view]
      rfl

theorem archiveTrades_terms {last : App} (ends : (app.archiveTrades a m ids now).state = some last) :
    last.view.terms = app.view.terms := by
  have ended := archiveTrades_spec app a m ids now
  cases outcome : app.archiveTrades a m ids now with
  | fault =>
    rw [outcome] at ends
    cases ends
  | throw e next =>
    rw [outcome] at ends ended
    cases ends
    cases ended <;> rfl
  | ok result next =>
    rw [outcome] at ends ended
    cases ends
    cases ended with
    | committed found journal nodup view => rw [view]; rfl

/-! ## Markets -/

theorem createMarket_venue (app : App) (i : Int) (instr : Symbol) (d : Int) (state : Nat) (busDay : Int) :
    ((app.createMarket i instr d state busDay).map fun _ => .done).seen =
      some (app.venue.createMarket (toMarketId i d) instr d state busDay) := by
  rw [createMarket, Venue.createMarket]
  have known : (app.venue.terms (toMarketId i d)).isSome = (app.markets.find (toMarketId i d)).isSome := Option.isSome_map
  rw [known, show app.venue.mq = app.mq from rfl]
  split
  next => rfl
  next =>
    split
    next => rfl
    next absent =>
      cases app.mq.createMarket (toMarketId i d) instr d state with
      | none => rfl
      | some mq =>
        have new : ({ app with mq } : App).markets.find (toMarketId i d) = none := Option.not_isSome_iff_eq_none.mp absent
        have terms : (({ app with mq } : App).setMarket (toMarketId i d) (.make instr d state)).terms =
            update app.terms (toMarketId i d) (some (instr, d, state)) := by
          funext n
          simp only [App.terms, App.setMarket, OrdMap.find_put, update_apply]
          split <;> rfl
        simp only [Outcome.map, Outcome.seen, venue, terms, view_newMarket new]
        rfl

theorem updateMarket_venue {terms : Symbol × Int × Nat} {state : Nat} (known : app.terms m = some terms) :
    ((app.updateMarket m state).map fun _ => .done).seen = some (app.venue.updateMarket m terms state) := by
  rw [updateMarket, Venue.updateMarket, show app.venue.mq = app.mq from rfl]
  cases app.mq.updateMarket m state with
  | none => rfl
  | some mq =>
    obtain ⟨instr, settlDay, -⟩ := market_of_terms known
    have updated : (({ app with mq } : App).setMarket m { app.market m with state }).terms =
        update app.terms m (some (terms.1, terms.2.1, state)) := by
      funext n
      simp only [App.terms, App.setMarket, OrdMap.find_put, update_apply]
      split
      next => rw [← instr, ← settlDay]; rfl
      next => rfl
    have view : (({ app with mq } : App).setMarket m { app.market m with state }).view = { app.view with
        mq, terms := update app.view.terms m ((app.market m).instr, (app.market m).settlDay, state) } := view_setTerms state
    simp only [Outcome.map, Outcome.seen, venue, updated, view]
    rfl

/-! ## Sessions -/

theorem venue_ensureSess (app : App) (a : Symbol) : (app.ensureSess a).venue = app.venue := by
  rw [venue, view_ensureSess]
  rfl

theorem Settled.ensureSess (settled : app.Settled) (a : Symbol) : (app.ensureSess a).Settled :=
  settled.step (show app.step (.sess a) = some (app.ensureSess a) from rfl)

theorem refsFiled_ensureSess (filed : app.view.RefsFiled) (a : Symbol) : (app.ensureSess a).view.RefsFiled := by
  rw [view_ensureSess]
  exact filed

/-- A call in a market that is looked up first. -/
theorem withMarket_venue {α : Type} {f : Outcome α} {g : α → Reply}
    {call : Symbol × Int × Nat → Except Exception Venue.Answer × Venue}
    (same : ∀ terms, app.terms m = some terms → (f.map g).seen = some (call terms)) :
    (app.withMarket m (f.map g)).seen = some (app.venue.withMarket m call) := by
  rw [withMarket, Venue.withMarket, show app.venue.terms m = app.terms m from rfl]
  cases found : app.terms m with
  | none =>
    have absent : ¬ (app.markets.find m).isSome := by
      rw [← Option.isSome_map, show (app.markets.find m).map _ = app.terms m from rfl, found]
      simp
    rw [if_neg absent]
    rfl
  | some terms =>
    have present : (app.markets.find m).isSome := by
      rw [← Option.isSome_map, show (app.markets.find m).map _ = app.terms m from rfl, found]
      rfl
    rw [if_pos present]
    exact same terms found

end App

/-! ## Runs -/

/-- References fit in the field that stores them, a reference is used in the market of its order, and nothing is named twice. -/
def Venue.Call.Proper (v : Venue) : Venue.Call → Prop
  | createOrder _ _ ref _ _ _ _ _ _ => ref.length ≤ maxRef
  | changeOrder a m _ (.ref ref) _ => ∀ n, n ≠ m → v.findRef a n ref = none
  | changeOrder _ _ _ (.ids ids) _ => ids.Nodup
  | archiveTrades _ _ ids _ => ids.Nodup
  | _ => True

/-- Each call is proper when its turn comes. -/
def Venue.Proper : Venue → List Venue.Call → Prop
  | _, [] => True
  | v, c :: cs => c.Proper v ∧ Proper (v.call c).2 cs

namespace App

variable {app app' : App} {c : Venue.Call} {cs : List Venue.Call}

/-- The answers to a list of calls, and the engine afterwards. -/
def answers : App → List Venue.Call → Option (List (Except Exception Venue.Answer) × App)
  | app, [] => some ([], app)
  | app, c :: cs =>
    match app.call c.op with
    | .ok reply next => (answers next cs).map fun x => (.ok (next.answer reply) :: x.1, x.2)
    | .throw e next => (answers next cs).map fun x => (.error e :: x.1, x.2)
    | .fault => none

theorem home_of_proper {a : Symbol} {m now : Int} {change : Change} {ref : Bytes} (live : app.view.Live) (filed : app.view.RefsFiled)
    (proper : Venue.Call.Proper app.venue (.changeOrder a m change (.ref ref) now)) {p : OrderPtr}
    (found : (app.view.refs a).find ref = some p) : (app.order p).marketId = m := by
  by_contra elsewhere
  have absent := proper _ elsewhere
  have here : ((app.view.refs a).find ref).filter (fun q => (app.view.heap.order q).marketId = (app.order p).marketId) = some p :=
    Option.filter_eq_some_iff.mpr ⟨found, decide_eq_true rfl⟩
  rw [venue, View.findRef_venue live filed, here] at absent
  cases absent

/-- A call answers as the venue does, and leaves what the venue leaves. -/
theorem call_seen (settled : app.Settled) (filed : app.view.RefsFiled) (proper : c.Proper app.venue) :
    (app.call c.op).seen = some (app.venue.call c) := by
  cases c with
  | sess a =>
    show some (_, (app.ensureSess a).venue) = _
    rw [venue_ensureSess]
    rfl
  | createMarket i instr d state busDay => exact createMarket_venue app i instr d state busDay
  | updateMarket m state => exact withMarket_venue fun terms known => updateMarket_venue known
  | createOrder a m ref side lots ticks minLots now busDay =>
    rw [Venue.call, ← venue_ensureSess app a]
    refine withMarket_venue fun terms known => ?_
    have settled := settled.ensureSess a
    have listed : ((app.ensureSess a).listing m).isSome := by rw [listing_isSome, known]; rfl
    exact createOrder_venue settled (refsFiled_ensureSess filed a) known fun last ends =>
      (Within.createOrder listed settled.inv.matches_ ends).terms (createOrder_terms settled.inv ends)
  | changeOrder a m change target now =>
    have settled := settled.ensureSess a
    have filed := refsFiled_ensureSess filed a
    have kept : (app.ensureSess a).terms m ≠ none → ∀ last,
        ((app.ensureSess a).changeTarget a m change now target).state = some last → last.terms = (app.ensureSess a).terms :=
      fun known last ends => (Within.changeTarget (by rwa [listing_isSome, Option.isSome_iff_ne_none]) ends).terms
        (changeTarget_terms settled.inv ends)
    rw [← venue_ensureSess app a] at proper ⊢
    cases target with
    | id id =>
      exact withMarket_venue fun terms known =>
        changeById_venue settled.inv settled.reported (kept (Option.ne_none_iff_exists'.mpr ⟨_, known⟩))
    | ref ref =>
      exact withMarket_venue fun terms known =>
        changeByRef_venue settled.inv settled.reported filed (fun p found => home_of_proper settled.inv.live filed proper found)
          (kept (Option.ne_none_iff_exists'.mpr ⟨_, known⟩))
    | ids ids =>
      exact withMarket_venue fun terms known =>
        changeByIds_venue settled.inv settled.reported proper (kept (Option.ne_none_iff_exists'.mpr ⟨_, known⟩))
  | createTrade a m ref side lots ticks liqInd cpty created =>
    rw [Venue.call, ← venue_ensureSess app a]
    refine withMarket_venue fun terms known => ?_
    have settled := settled.ensureSess a
    have listed : ((app.ensureSess a).listing m).isSome := by rw [listing_isSome, known]; rfl
    exact createTrade_venue settled.inv settled.reported known fun last ends =>
      (Within.createTrade listed ends).terms (createTrade_terms settled.inv ends)
  | archiveTrade a m id now =>
    rw [Venue.call, ← venue_ensureSess app a]
    have trades := (settled.ensureSess a).trades
    exact archiveTrade_venue trades fun last ends => (Within.archiveTrade m ends).terms (archiveTrade_terms ends)
  | archiveTrades a m ids now =>
    rw [Venue.call, ← venue_ensureSess app a]
    exact archiveTrades_venue proper fun last ends => (Within.archiveTrades m ends).terms (archiveTrades_terms ends)
  | pop => rfl

theorem refsFiled_call (settled : app.Settled) (filed : app.view.RefsFiled) (proper : c.Proper app.venue)
    (stepped : app.step c.op = some app') : app'.view.RefsFiled := by
  obtain ⟨app₀, view₀, -, inv₀, effect, -⟩ := step_effect settled.inv stepped
  refine effect.refsFiled inv₀ (view₀ ▸ filed) ?_
  cases c with
  | createOrder => exact proper
  | _ => trivial

/-- The venue of the engine steps as the call says. -/
theorem step_seen (settled : app.Settled) (filed : app.view.RefsFiled) (proper : c.Proper app.venue) :
    ∃ app', app.step c.op = some app' ∧ app'.venue = (app.venue.call c).2 := by
  have seen := call_seen settled filed proper
  cases outcome : app.call c.op with
  | ok reply app' =>
    rw [outcome] at seen
    exact ⟨app', by rw [step, outcome]; rfl, (Prod.ext_iff.mp (Option.some.inj seen)).2⟩
  | throw e app' =>
    rw [outcome] at seen
    exact ⟨app', by rw [step, outcome]; rfl, (Prod.ext_iff.mp (Option.some.inj seen)).2⟩
  | fault =>
    rw [outcome] at seen
    cases seen

/-- A run of the engine is a run of the venue. -/
theorem answers_seen (settled : app.Settled) (filed : app.view.RefsFiled) (proper : app.venue.Proper cs) :
    ∃ last, app.answers cs = some ((app.venue.run cs).1, last) ∧ last.venue = (app.venue.run cs).2 := by
  induction cs generalizing app with
  | nil => exact ⟨app, rfl, rfl⟩
  | cons c cs inductionHypothesis =>
    obtain ⟨properFirst, properRest⟩ := proper
    have seen := call_seen settled filed properFirst
    -- What the outcome shows is the answer and the venue to go on with.
    have next : ∀ {app' : App} {answer : Except Exception Venue.Answer}, app.step c.op = some app' →
        some (answer, app'.venue) = some (app.venue.call c) →
        ∃ last, ((app'.answers cs).map fun x => (answer :: x.1, x.2)) = some ((app.venue.run (c :: cs)).1, last) ∧
          last.venue = (app.venue.run (c :: cs)).2 := by
      intro app' answer stepped shown
      have reached := Option.some.inj shown
      rw [← reached] at properRest
      obtain ⟨last, answers, venue⟩ :=
        inductionHypothesis (settled.step stepped) (refsFiled_call settled filed properFirst stepped) properRest
      refine ⟨last, ?_, ?_⟩
      · rw [answers, Venue.run, ← reached]
        rfl
      · rw [venue, Venue.run, ← reached]
    cases outcome : app.call c.op with
    | ok reply app' =>
      rw [outcome] at seen
      rw [answers, outcome]
      exact next (by rw [step, outcome]; rfl) seen
    | throw e app' =>
      rw [outcome] at seen
      rw [answers, outcome]
      exact next (by rw [step, outcome]; rfl) seen
    | fault =>
      rw [outcome] at seen
      cases seen

theorem answers_settled {outs : List (Except Exception Venue.Answer)} {last : App} (settled : app.Settled) (filed : app.view.RefsFiled) (proper : app.venue.Proper cs)
    (answers : app.answers cs = some (outs, last)) : last.Settled ∧ last.view.RefsFiled := by
  induction cs generalizing app outs with
  | nil =>
    obtain ⟨-, rfl⟩ := Prod.mk.inj (Option.some.inj answers)
    exact ⟨settled, filed⟩
  | cons c cs inductionHypothesis =>
    obtain ⟨properFirst, properRest⟩ := proper
    obtain ⟨next, stepped, venue⟩ := step_seen settled filed properFirst
    rw [← venue] at properRest
    have later : ∀ {outs : List (Except Exception Venue.Answer)}, next.answers cs = some (outs, last) →
        last.Settled ∧ last.view.RefsFiled := fun answers =>
      inductionHypothesis (settled.step stepped) (refsFiled_call settled filed properFirst stepped) properRest answers
    rw [App.answers] at answers
    rw [step] at stepped
    cases outcome : app.call c.op with
    | ok reply app' =>
      rw [outcome] at answers stepped
      obtain rfl := Option.some.inj stepped
      obtain ⟨x, run, same⟩ := Option.map_eq_some_iff.mp answers
      exact later (run.trans (congrArg some (Prod.ext rfl (Prod.ext_iff.mp same).2)))
    | throw e app' =>
      rw [outcome] at answers stepped
      obtain rfl := Option.some.inj stepped
      obtain ⟨x, run, same⟩ := Option.map_eq_some_iff.mp answers
      exact later (run.trans (congrArg some (Prod.ext rfl (Prod.ext_iff.mp same).2)))
    | fault =>
      rw [outcome] at stepped
      cases stepped

theorem venue_make (capacity maxExecs : Nat) : (App.make capacity maxExecs).venue = .make capacity maxExecs := by
  refine Venue.ext rfl rfl rfl rfl rfl (funext fun m => funext fun s => ?_) rfl rfl rfl
  cases s <;> rfl

/-- The engine never faults, and answers every list of calls exactly as the exchange without pointers does. -/
theorem exchange (capacity maxExecs : Nat) (cs : List Venue.Call) (proper : (Venue.make capacity maxExecs).Proper cs) :
    ∃ app, (App.make capacity maxExecs).answers cs = some (((Venue.make capacity maxExecs).run cs).1, app) ∧
      app.venue = ((Venue.make capacity maxExecs).run cs).2 := by
  rw [← venue_make] at proper ⊢
  exact answers_seen (.make capacity maxExecs) (refsFiled_make capacity maxExecs) proper

/-- Two sales at one price meet a larger purchase; then come a revision below the executed lots and a cancellation too late. -/
theorem exchange_sweep :
    let a : Symbol := .assign (bytes "MARAYL")
    let b : Symbol := .assign (bytes "GOSAYL")
    let m := toMarketId 1 0
    let cs : List Venue.Call := [.createMarket 1 (.assign (bytes "EURUSD")) 0 0 0, .createOrder a m (bytes "apple") .sell 10 5 0 2 0,
      .createOrder b m [] .sell 4 5 0 3 0, .createOrder b m (bytes "pear") .buy 12 6 0 4 0,
      .changeOrder b m (.revise 1) (.ids [2]) 5, .archiveTrades b m [5, 7] 6, .changeOrder a m .cancel (.id 1) 7,
      .createTrade a m [] .buy 1 5 .none b 8, .pop]
    ∃ app, (App.make 16 16).answers cs = some (((Venue.make 16 16).run cs).1, app) ∧
      app.venue = ((Venue.make 16 16).run cs).2 ∧ ((Venue.make 16 16).run cs).1[4]? = some (.error (.invalidLots 1)) ∧
      ((Venue.make 16 16).run cs).1[6]? = some (.error (.orderNotFound 1)) := by
  intro a b m cs
  have apple : (bytes "apple").length ≤ maxRef := by decide
  have pear : (bytes "pear").length ≤ maxRef := by decide
  have trades : [(5 : Int), 7].Nodup := by decide
  obtain ⟨app, answers, venue⟩ := exchange 16 16 cs
    ⟨trivial, apple, Nat.zero_le _, pear, List.nodup_singleton _, trades, trivial, trivial, trivial, trivial⟩
  have told : ((App.make 16 16).answers cs).map (fun x => (x.1[4]?, x.1[6]?)) =
      some (some (.error (.invalidLots 1)), some (.error (.orderNotFound 1))) := by decide +kernel
  rw [answers] at told
  exact ⟨app, answers, venue, Prod.ext_iff.mp (Option.some.inj told)⟩

end App

end Swirly
