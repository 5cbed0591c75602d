import Swirly.Verified.App.Step

/-!
# Ids of markets

`to_market_id` keeps sixteen bits of an instrument's id and sixteen bits of a settlement day.  Pairs that agree in these
share a market: for the second of them `create_market` says that the market exists already, and a lookup finds the market
and the position of the first.
-/

namespace Swirly

open Function

variable {i j d e : Int}

theorem toMarketId_eq_iff : toMarketId i d = toMarketId j e ↔ i % 2 ^ 16 = j % 2 ^ 16 ∧ d % 2 ^ 16 = e % 2 ^ 16 := by
  simp only [toMarketId, jdToTjd, Int.bmod_def]
  omega

/-- The bits that the id keeps tell the pairs apart. -/
def Apart (p q : Int × Int) : Prop := p.1 % 2 ^ 16 ≠ q.1 % 2 ^ 16 ∨ p.2 % 2 ^ 16 ≠ q.2 % 2 ^ 16

theorem apart_iff {p q : Int × Int} : Apart p q ↔ toMarketId p.1 p.2 ≠ toMarketId q.1 q.2 := by
  rw [Apart, ← not_and_or, ← toMarketId_eq_iff]

namespace Market

variable {h h' : Heap} {k k' : Market} {p : OrderPtr} {lots now : Int}

/-- What a market is of. -/
def pair (market : Market) : Symbol × Int := (market.instr, market.settlDay)

theorem pair_onSide {f : Heap → MarketSide → Option (Heap × MarketSide)} (done : k.onSide h p f = some (h', k')) :
    k'.pair = k.pair := by
  obtain ⟨⟨_, s⟩, -, made⟩ := Option.map_eq_some_iff.mp done
  cases made
  simp [pair]

theorem pair_takeOrder (done : k.takeOrder h p lots now = some (h', k')) : k'.pair = k.pair := by
  obtain ⟨⟨_, _⟩, taken, made⟩ := Option.map_eq_some_iff.mp done
  cases made
  exact (pair_onSide taken :)

end Market

namespace App

variable {app app' app'' : App} {a : Symbol} {m n now : Int} {op : Op}

/-- What a lookup of an id shows. -/
def listing (app : App) (n : Int) : Option (Symbol × Int) := (app.markets.find n).map Market.pair

def HasPosn (app : App) (a : Symbol) (n : Int) : Prop := ((app.sess a).posns.find n).isSome

/-- A part of a call in the market `m`: the markets stay what they are of, and a new position is one in `m`. -/
structure Within (m : Int) (app app' : App) : Prop where
  listing : app'.listing = app.listing
  posn : ∀ a n, app'.HasPosn a n → app.HasPosn a n ∨ n = m
  matches_ : ∀ x ∈ app'.matches_, x ∈ app.matches_ ∨ x.makerPosn.2 = m

namespace Within

theorem refl (m : Int) (app : App) : Within m app app := ⟨rfl, fun _ _ => .inl, fun _ => .inl⟩

theorem trans (first : Within m app app') (second : Within m app' app'') : Within m app app'' where
  listing := second.listing.trans first.listing
  posn a n has := (second.posn a n has).elim (first.posn a n) .inr
  matches_ x member := (second.matches_ x member).elim (first.matches_ x) .inr

theorem known (within : Within m app app') (known : (app.listing m).isSome) : (app'.listing m).isSome := by
  rw [within.listing]
  exact known

/-- Nothing of this changes. -/
theorem of_eq (markets : app'.markets = app.markets) (sesss : app'.sesss = app.sesss)
    (matches_ : app'.matches_ = app.matches_) : Within m app app' where
  listing := by
    funext n
    simp only [App.listing, markets]
  posn a n has := .inl (by simpa only [HasPosn, sess, sesss] using has)
  matches_ x member := .inl (matches_ ▸ member)

theorem setSess {s : Sess} (posns : ∀ n, (s.posns.find n).isSome → app.HasPosn a n ∨ n = m) :
    Within m app (app.setSess a s) where
  listing := rfl
  posn b n has := by
    by_cases same : b = a
    · subst same
      exact posns n (by simpa [HasPosn, sess, App.setSess] using has)
    · exact .inl (by simpa [HasPosn, sess, App.setSess, same] using has)
  matches_ _ := .inl

theorem setMarket {k : Market} (known : (app.listing m).isSome) (same : k.pair = (app.market m).pair) :
    Within m app (app.setMarket m k) where
  listing := by
    funext n
    simp only [App.listing, App.setMarket, OrdMap.find_put]
    split
    next here =>
      have present : (app.markets.find m).isSome := by simpa [App.listing] using known
      rw [here, OrdMap.find_eq_some_get present]
      exact congrArg some same
    next => rfl
  posn _ _ := .inl
  matches_ _ := .inl

theorem allocId (known : (app.listing m).isSome) : Within m app (app.allocId m).2 := setMarket known rfl

theorem onMarket {f : Heap → Market → Option (Heap × Market)} (known : (app.listing m).isSome)
    (same : ∀ h k h' k', f h k = some (h', k') → k'.pair = k.pair) (done : app.onMarket m f = some app') :
    Within m app app' := by
  obtain ⟨⟨h, k⟩, made, rfl⟩ := Option.map_eq_some_iff.mp done
  have heap : Within m app { app with heap := h } := of_eq rfl rfl rfl
  exact heap.trans (setMarket known (same _ _ _ _ made))

/-- A session with the positions that it had. -/
theorem setSess_same {s : Sess} (posns : s.posns = (app.sess a).posns) : Within m app (app.setSess a s) :=
  setSess fun n has => .inl (by rwa [HasPosn, ← posns])

theorem ensureSess (m : Int) (app : App) (a : Symbol) : Within m app (app.ensureSess a) where
  listing := rfl
  posn b n has := .inl (by rwa [HasPosn, sess_ensureSess] at has)
  matches_ _ := .inl

theorem ensurePosn (m : Int) (app : App) (a : Symbol) : Within m app (app.ensurePosn a m) :=
  setSess fun n has => by
    simp only [Sess.ensurePosn, OrdMap.find_insert] at has
    split at has
    next here => exact .inr here
    next => exact .inl has

theorem pushExecFront (m : Int) (app : App) (a : Symbol) (e : ExecPtr) : Within m app (app.pushExecFront a e) :=
  setSess_same rfl

theorem fileTrade (m : Int) (app : App) (a : Symbol) (e : ExecPtr) : Within m app (app.fileTrade a m e) :=
  setSess fun n has => by
    simp only [Sess.addTrade, OrdMap.find_put] at has
    split at has
    next here => exact .inr here
    next => exact .inl has

theorem book (m : Int) (app : App) (a : Symbol) (e : ExecPtr) (posn : PosnPtr) :
    Within m app ((app.stampPosn e posn).fileTrade a m e) :=
  (of_eq rfl rfl rfl : Within m app (app.stampPosn e posn)).trans (fileTrade m _ a e)

theorem removeOrder (m : Int) (app : App) (a : Symbol) (o : Order) (leaves : Bool) :
    Within m app (if leaves then app.setSess a ((app.sess a).removeOrder o) else app) := by
  split
  next => exact setSess_same rfl
  next => exact refl m app

/-! ## New orders -/

theorem newMatch {o : Order} {p : OrderPtr} {lots sumLots sumCost : Int} {x : Match} (known : (app.listing m).isSome)
    (made : app.newMatch m o p lots sumLots sumCost now = some (x, app')) : Within m app app' ∧ x.makerPosn.2 = m := by
  simp only [App.newMatch] at made
  split at made
  next => cases made
  next =>
    cases made
    have first : Within m app (app.allocId m).2 := allocId known
    have second : Within m app ((app.allocId m).2.allocId m).2 := first.trans (allocId (first.known known))
    refine ⟨(second.trans (ensurePosn m _ _)).trans (of_eq rfl rfl rfl), rfl⟩

theorem matchLoop {a : Symbol} {o : Order} {direct : Direct} {makers : List OrderPtr} {sums sums' : Sums}
    {resp resp' : Response} (known : (app.listing m).isSome)
    (done : App.matchLoop a m o direct now makers sums app resp = some (sums', app', resp')) : Within m app app' := by
  induction makers generalizing sums app resp with
  | nil =>
    cases done
    exact refl m _
  | cons p makers inductionHypothesis =>
    simp only [App.matchLoop] at done
    split at done
    next =>
      cases done
      exact refl m _
    next =>
      split at done
      next =>
        cases done
        exact refl m _
      next =>
        split at done
        next => cases done
        next x made matched =>
          obtain ⟨within, here⟩ := newMatch known matched
          have entered : Within m made { made with
              execs_ := made.execs_ ++ [x.makerTrade, x.takerTrade], matches_ := made.matches_ ++ [x] } :=
            { listing := rfl
              posn := fun _ _ => .inl
              matches_ := fun y member => by
                cases List.mem_append.mp member with
                | inl before => exact .inl before
                | inr new =>
                  rw [List.mem_singleton.mp new]
                  exact .inr here }
          have both := within.trans entered
          exact both.trans (inductionHypothesis (both.known known) done)

theorem matchOrders {p : OrderPtr} {resp resp' : Response} (known : (app.listing m).isSome)
    (done : app.matchOrders a m p now resp = some (app', resp')) : Within m app app' := by
  simp only [App.matchOrders] at done
  split at done
  next => cases done
  next matched =>
    have within := matchLoop known matched
    split at done
    next =>
      cases done
      exact within.trans (of_eq rfl rfl rfl)
    next =>
      cases done
      exact within

theorem rest {p : OrderPtr} (known : (app.listing m).isSome) (done : app.rest m p = some app') : Within m app app' := by
  simp only [App.rest] at done
  split at done
  next =>
    cases done
    exact refl m _
  next => exact onMarket known (fun _ _ _ _ made => Market.pair_onSide made) done

theorem unrest {p : OrderPtr} (known : (app.listing m).isSome) (done : app.unrest m p = some app') : Within m app app' := by
  simp only [App.unrest] at done
  split at done
  next =>
    cases done
    exact refl m _
  next => exact onMarket known (fun _ _ _ _ made => Market.pair_onSide made) done

theorem commitMatch {x : Match} (known : (app.listing m).isSome) (here : x.makerPosn.2 = m)
    (done : app.commitMatch a m now x = some app') : Within m app app' := by
  simp only [App.commitMatch] at done
  split at done
  next => cases done
  next taken reduced =>
    split at done
    next => cases done
    next =>
      cases done
      have reduce : Within m app taken := onMarket known (fun _ _ _ _ made => Market.pair_takeOrder made) reduced
      rw [here]
      exact ((reduce.trans (book m _ _ _ _)).trans (removeOrder m _ _ _ _)).trans (book m _ _ _ _)

theorem commitMatches (known : (app.listing m).isSome) (here : ∀ x ∈ app.matches_, x.makerPosn.2 = m)
    (done : app.commitMatches a m now = some app') : Within m app app' := by
  rw [App.commitMatches] at done
  generalize app.matches_ = xs at here done
  induction xs generalizing app with
  | nil =>
    cases done
    exact refl m _
  | cons x xs inductionHypothesis =>
    obtain ⟨next, committed, rest⟩ := Option.bind_eq_some_iff.mp done
    obtain ⟨first, here⟩ := List.forall_mem_cons.mp here
    have within := commitMatch known first committed
    exact within.trans (inductionHypothesis (within.known known) here rest)

theorem commitOrder {p : OrderPtr} {e : ExecPtr} (known : (app.listing m).isSome) (here : ∀ x ∈ app.matches_, x.makerPosn.2 = m)
    (done : app.commitOrder a m p e now = some app') : Within m app app' := by
  simp only [App.commitOrder] at done
  split at done
  next =>
    have pushed := pushExecFront m app a e
    exact pushed.trans (commitMatches (pushed.known known) here done)
  next =>
    have listed : Within m app (app.setSess a ((app.sess a).insertOrder p (app.order p))) := setSess_same rfl
    have pushed := listed.trans (pushExecFront m _ a e)
    exact pushed.trans (commitMatches (pushed.known known) here done)

theorem clearScratch (m : Int) (app : App) : Within m app app.clearScratch where
  listing := rfl
  posn _ _ := .inl
  matches_ x member := by cases member

theorem discard (m : Int) (app : App) (p : OrderPtr) : Within m app (app.discard p) :=
  (of_eq rfl rfl rfl : Within m app { app.releaseExecs app.execs_ with heap := app.heap.freeOrder p }).trans
    (clearScratch m _)

theorem createOrder {ref : Bytes} {side : Side} {lots ticks minLots busDay : Int} (known : (app.listing m).isSome)
    (clear : app.matches_ = [])
    (ends : (app.createOrder a m ref side lots ticks minLots now busDay).state = some app') : Within m app app' := by
  simp only [App.createOrder] at ends
  split at ends
  next =>
    cases ends
    exact refl m _
  next =>
    have placed : Within m app (app.place a m ref side lots ticks minLots now).2.2 :=
      (allocId known).trans (of_eq rfl rfl rfl)
    generalize app.place a m ref side lots ticks minLots now = made at placed ends
    obtain ⟨p, e, made⟩ := made
    split at ends
    next => cases ends
    next matched resp matching =>
      have matched_ := placed.trans (matchOrders (placed.known known) matching)
      obtain ⟨posted, isPosted⟩ : ∃ posted,
        posted = if (!matched.matches_.isEmpty) = true then matched.ensurePosn a m else matched := ⟨_, rfl⟩
      have posn : Within m matched posted := by
        rw [isPosted]
        split
        next => exact ensurePosn m matched a
        next => exact refl m matched
      have before := matched_.trans posn
      rw [← isPosted] at ends
      split at ends
      next => cases ends
      next rested resting =>
        have staged := before.trans (rest (before.known known) resting)
        split at ends
        next =>
          split at ends
          next => cases ends
          next undone undoing =>
            cases ends
            exact (staged.trans (unrest (staged.known known) undoing)).trans (discard m _ p)
        next mq journal =>
          split at ends
          next => cases ends
          next committed committing =>
            cases ends
            have filed : Within m app { rested with mq } := staged.trans (of_eq rfl rfl rfl)
            refine (filed.trans (commitOrder (filed.known known) (fun x member => ?_) committing)).trans (clearScratch m _)
            cases filed.matches_ x member with
            | inl before =>
              rw [clear] at before
              cases before
            | inr here => exact here

/-! ## Changes of orders -/

theorem commitChange {change : Change} {p : OrderPtr} {e : ExecPtr} (known : (app.listing m).isSome)
    (done : app.commitChange a m change p e now = some app') : Within m app app' := by
  simp only [App.commitChange] at done
  split at done
  next => cases done
  next changed changing =>
    cases done
    have change_ : Within m app changed := onMarket known (fun h k h' k' made => by
      cases change with
      | revise lots => exact Market.pair_onSide (f := fun h s => s.reviseOrder h p lots now) made
      | cancel => exact Market.pair_onSide (f := fun h s => s.cancelOrder h p now) made) changing
    exact (change_.trans (removeOrder m _ _ _ _)).trans (pushExecFront m _ a e)

theorem changeOrder {change : Change} {p : OrderPtr} (known : (app.listing m).isSome)
    (ends : (app.changeOrder a m change p now).state = some app') : Within m app app' := by
  simp only [App.changeOrder] at ends
  split at ends
  next =>
    cases ends
    exact refl m _
  next =>
    have made : Within m app ((app.allocId m).2.newExec (change.report (.make ((app.allocId m).2.order p) (app.allocId m).1 now))).2 :=
      (allocId known).trans (of_eq rfl rfl rfl)
    split at ends
    next =>
      cases ends
      exact made.trans (of_eq rfl rfl rfl)
    next mq journal =>
      split at ends
      next => cases ends
      next committed committing =>
        cases ends
        have journaled : Within m app { ((app.allocId m).2.newExec
            (change.report (.make ((app.allocId m).2.order p) (app.allocId m).1 now))).2 with mq } := made.trans (of_eq rfl rfl rfl)
        exact journaled.trans (commitChange (journaled.known known) committing)

theorem stageChanges {change : Change} {ids : List Int} {resp : Response} (known : (app.listing m).isSome)
    (ends : (App.stageChanges a m change now ids app resp).state = some app') : Within m app app' := by
  induction ids generalizing app resp with
  | nil =>
    cases ends
    exact refl m _
  | cons id ids inductionHypothesis =>
    simp only [App.stageChanges] at ends
    split at ends
    next =>
      cases ends
      exact of_eq rfl rfl rfl
    next p found =>
      split at ends
      next =>
        cases ends
        exact of_eq rfl rfl rfl
      next =>
        have made : Within m app ((app.allocId m).2.newExec (change.report (.make ((app.allocId m).2.order p) (app.allocId m).1 now))).2 :=
          (allocId known).trans (of_eq rfl rfl rfl)
        exact made.trans (inductionHypothesis (made.known known) ends)

theorem commitChanges {change : Change} {es : List ExecPtr} (known : (app.listing m).isSome)
    (done : App.commitChanges a m change now es app = some app') : Within m app app' := by
  induction es generalizing app with
  | nil =>
    cases done
    exact refl m _
  | cons e es inductionHypothesis =>
    simp only [App.commitChanges] at done
    split at done
    next => cases done
    next p found =>
      split at done
      next => cases done
      next committed committing =>
        have first := commitChange known committing
        exact first.trans (inductionHypothesis (first.known known) done)

theorem changeTarget {change : Change} {target : Target} (known : (app.listing m).isSome)
    (ends : (app.changeTarget a m change now target).state = some app') : Within m app app' := by
  cases target with
  | id id =>
    simp only [App.changeTarget, App.changeById] at ends
    split at ends
    next =>
      cases ends
      exact refl m _
    next => exact changeOrder known ends
  | ref ref =>
    simp only [App.changeTarget, App.changeByRef] at ends
    split at ends
    next =>
      cases ends
      exact refl m _
    next => exact changeOrder known ends
  | ids ids =>
    simp only [App.changeTarget, App.changeByIds] at ends
    split at ends
    next => cases ends
    next staged =>
      cases ends
      exact stageChanges known (congrArg Outcome.state staged)
    next resp made staged =>
      have stage : Within m app made := stageChanges known (congrArg Outcome.state staged)
      split at ends
      next =>
        cases ends
        exact stage.trans (of_eq rfl rfl rfl)
      next mq journal =>
        split at ends
        next => cases ends
        next committed committing =>
          cases ends
          have journaled : Within m app { made with mq } := stage.trans (of_eq rfl rfl rfl)
          exact journaled.trans (commitChanges (journaled.known known) committing)

/-! ## Trades -/

theorem createTrade {ref : Bytes} {side : Side} {lots ticks : Int} {liqInd : LiqInd} {cpty : Symbol} {created : Int}
    (known : (app.listing m).isSome)
    (ends : (app.createTrade a m ref side lots ticks liqInd cpty created).state = some app') : Within m app app' := by
  have posn := ensurePosn m app a
  have numbered := posn.trans (allocId (posn.known known))
  simp only [App.createTrade] at ends
  generalize Exec.makeManual _ _ _ _ _ _ _ _ _ _ _ _ _ _ = trade at ends
  have made : Within m app (((app.ensurePosn a m).allocId m).2.newExec trade).2 := numbered.trans (of_eq rfl rfl rfl)
  generalize ((app.ensurePosn a m).allocId m).2.newExec trade = filed at made ends
  split at ends
  next =>
    split at ends
    next =>
      cases ends
      exact made.trans (of_eq rfl rfl rfl)
    next mq journal =>
      cases ends
      have journaled : Within m app { filed.2 with mq } := made.trans (of_eq rfl rfl rfl)
      exact journaled.trans (fileTrade m _ a _)
  next =>
    have cptySess := made.trans (ensureSess m _ cpty)
    have cptyPosn := cptySess.trans (ensurePosn m _ cpty)
    have cptyNumbered := cptyPosn.trans (allocId (cptyPosn.known known))
    generalize (((filed.2.ensureSess cpty).ensurePosn cpty m).allocId m) = next at cptyNumbered ends
    have cptyMade : Within m app (next.2.newExec (trade.opposite next.1)).2 := cptyNumbered.trans (of_eq rfl rfl rfl)
    split at ends
    next =>
      cases ends
      exact cptyMade.trans (of_eq rfl rfl rfl)
    next mq journal =>
      cases ends
      have journaled : Within m app { (next.2.newExec (trade.opposite next.1)).2 with mq } := cptyMade.trans (of_eq rfl rfl rfl)
      exact (journaled.trans (fileTrade m _ cpty _)).trans (fileTrade m _ a _)

theorem removeTrade (n : Int) (app : App) (a : Symbol) (k : IdKey) : Within n app (app.removeTrade a k) := setSess_same rfl

theorem doArchiveTrade {id : Int} (n : Int) (ends : (app.doArchiveTrade a m id now).state = some app') : Within n app app' := by
  simp only [App.doArchiveTrade] at ends
  split at ends
  next =>
    cases ends
    exact refl n _
  next mq journal =>
    cases ends
    have journaled : Within n app { app with mq } := of_eq rfl rfl rfl
    exact journaled.trans (removeTrade n _ a _)

theorem removeTrades {ids : List Int} (n : Int) (done : App.removeTrades a m ids app = some app') : Within n app app' := by
  induction ids generalizing app with
  | nil =>
    cases done
    exact refl n _
  | cons id ids inductionHypothesis =>
    simp only [App.removeTrades] at done
    split at done
    next => cases done
    next => exact (removeTrade n app a _).trans (inductionHypothesis done)

theorem archiveTrades {ids : List Int} (n : Int) (ends : (app.archiveTrades a m ids now).state = some app') :
    Within n app app' := by
  simp only [App.archiveTrades] at ends
  split at ends
  next =>
    cases ends
    exact refl n _
  next =>
    split at ends
    next =>
      cases ends
      exact refl n _
    next mq journal =>
      split at ends
      next => cases ends
      next committed committing =>
        cases ends
        exact (of_eq rfl rfl rfl : Within n app { app with mq }).trans (removeTrades n committing)

end Within

/-- What a step does to the markets and the positions. -/
inductive Lists (app : App) (op : Op) (app' : App) : Prop
  | kept (listing : app'.listing = app.listing)
      (posn : ∀ a n, app'.HasPosn a n → app.HasPosn a n ∨ (app.listing n).isSome)
  | created {instrId : Int} {instr : Symbol} {settlDay : Int} {state : Nat} {busDay : Int}
      (creates : op = .createMarket instrId instr settlDay state busDay)
      (returns : (app.createMarket instrId instr settlDay state busDay).returned.isSome)
      (listing : app'.listing = update app.listing (toMarketId instrId settlDay) (some (instr, settlDay)))
      (posn : ∀ a n, app'.HasPosn a n → app.HasPosn a n)

theorem Within.lists (within : Within m app app') (known : (app.listing m).isSome) : Lists app op app' :=
  .kept within.listing fun a n has => (within.posn a n has).imp_right fun here => by rwa [here]

theorem Within.lists_all (within : ∀ n, Within n app app') : Lists app op app' :=
  .kept (within 0).listing fun a n has =>
    -- A position cannot be in two markets at once.
    ((within (n + 1)).posn a n has).imp_right fun here => by omega

/-- A call in a market that is there. -/
theorem withMarket_lists {α : Type} {f : Outcome α} (ends : (app.withMarket m f).state = some app')
    (within : (app.listing m).isSome → f.state = some app' → Within m app app') : Lists app op app' := by
  rw [withMarket] at ends
  split at ends
  next found =>
    have known : (app.listing m).isSome := by simpa [listing] using found
    exact (within known ends).lists known
  next =>
    cases ends
    exact .kept rfl fun _ _ => .inl

/-- A call first makes its session. -/
theorem Lists.of_ensureSess (lists : Lists (app.ensureSess a) op app') (other : ∀ i instr d state busDay,
    op ≠ .createMarket i instr d state busDay) : Lists app op app' := by
  have first : Within 0 app (app.ensureSess a) := .ensureSess 0 app a
  have before : ∀ b n, (app.ensureSess a).HasPosn b n → app.HasPosn b n := fun b n has => by
    rwa [HasPosn, sess_ensureSess] at has
  cases lists with
  | kept listing posn =>
    refine .kept (listing.trans first.listing) fun b n has => ?_
    rw [← first.listing]
    exact (posn b n has).imp_left (before b n)
  | created creates => exact absurd creates (other _ _ _ _ _)

theorem createMarket_cases (app : App) (i : Int) (instr : Symbol) (d : Int) (state : Nat) (busDay : Int) :
    (∃ e, app.createMarket i instr d state busDay = .throw e app) ∨
    ∃ mq, app.createMarket i instr d state busDay =
      .ok () (({ app with mq } : App).setMarket (toMarketId i d) (.make instr d state)) := by
  rw [createMarket]
  split
  next => exact .inl ⟨_, rfl⟩
  next =>
    split
    next => exact .inl ⟨_, rfl⟩
    next =>
      split
      next => exact .inl ⟨_, rfl⟩
      next mq posted => exact .inr ⟨mq, rfl⟩

theorem step_lists (inv : app.Inv) (stepped : app.step op = some app') : Lists app op app' := by
  cases op with
  | sess a =>
    cases stepped
    exact Within.lists_all fun n => .ensureSess n app a
  | createMarket instrId instr settlDay state busDay =>
    simp only [step, call, Outcome.state_map] at stepped
    cases createMarket_cases app instrId instr settlDay state busDay with
    | inl thrown =>
      obtain ⟨e, thrown⟩ := thrown
      rw [thrown] at stepped
      cases stepped
      exact .kept rfl fun _ _ => .inl
    | inr made =>
      obtain ⟨mq, made⟩ := made
      rw [made] at stepped
      cases stepped
      refine .created rfl (by rw [made]; rfl) ?_ fun _ _ => id
      funext n
      simp only [App.listing, App.setMarket, OrdMap.find_put, update_apply]
      split <;> rfl
  | updateMarket m state =>
    refine withMarket_lists stepped fun known ends => ?_
    simp only [Outcome.state_map, updateMarket] at ends
    split at ends
    next =>
      cases ends
      exact .refl m _
    next mq posted =>
      cases ends
      have journaled : Within m app { app with mq } := .of_eq rfl rfl rfl
      exact journaled.trans (.setMarket known rfl)
  | createOrder a m ref side lots ticks minLots now busDay =>
    refine .of_ensureSess (withMarket_lists stepped fun known ends => ?_) (by simp)
    rw [Outcome.state_map] at ends
    exact .createOrder known inv.matches_ ends
  | changeOrder a m change target now =>
    refine .of_ensureSess (withMarket_lists stepped fun known ends => ?_) (by simp)
    rw [Outcome.state_map] at ends
    exact .changeTarget known ends
  | createTrade a m ref side lots ticks liqInd cpty created =>
    refine .of_ensureSess (withMarket_lists stepped fun known ends => ?_) (by simp)
    rw [Outcome.state_map] at ends
    exact .createTrade known ends
  | archiveExec a e now =>
    refine .of_ensureSess (a := a) (Within.lists_all fun n => ?_) (by simp)
    simp only [step, call, Outcome.state_map, archiveExec] at stepped
    split at stepped
    next =>
      cases stepped
      exact .refl n _
    next => exact .doArchiveTrade n stepped
  | archiveTrade a m id now =>
    refine .of_ensureSess (a := a) (Within.lists_all fun n => ?_) (by simp)
    simp only [step, call, Outcome.state_map, archiveTrade] at stepped
    split at stepped
    next =>
      cases stepped
      exact .refl n _
    next => exact .doArchiveTrade n stepped
  | archiveTrades a m ids now =>
    refine .of_ensureSess (a := a) (Within.lists_all fun n => ?_) (by simp)
    simp only [step, call, Outcome.state_map] at stepped
    exact .archiveTrades n stepped
  | pop =>
    cases stepped
    exact Within.lists_all fun n => .of_eq rfl rfl rfl

/-! ## Runs -/

/-- A call of the run made the market of the pair. -/
def Made (start : App) (ops : List Op) (i : Int) (instr : Symbol) (d : Int) : Prop :=
  ∃ before t state busDay after, ops = before ++ .createMarket i instr d state busDay :: after ∧
    Run App.step (fun _ _ => True) start before t ∧ (t.createMarket i instr d state busDay).returned.isSome

theorem Made.snoc {start : App} {ops : List Op} {instr : Symbol} (made : Made start ops i instr d) (op : Op) :
    Made start (ops ++ [op]) i instr d := by
  obtain ⟨before, t, state, busDay, after, rfl, run, returns⟩ := made
  exact ⟨before, t, state, busDay, after ++ [op], by simp, run, returns⟩

/-- Every market, and every position, is one of a pair that a call made. -/
structure Listed (Used : Set (Int × Int)) (start : App) (ops : List Op) (app : App) : Prop where
  run : Run App.step (fun _ _ => True) start ops app
  inv : app.Inv
  made : ∀ n pair, app.listing n = some pair → ∃ i, (i, pair.2) ∈ Used ∧ toMarketId i pair.2 = n ∧ Made start ops i pair.1 pair.2
  posn : ∀ a n, app.HasPosn a n → (app.listing n).isSome

end App

/-- Markets are created for these pairs only. -/
def Op.CreatesIn (Used : Set (Int × Int)) : Op → Prop
  | .createMarket i _ d _ _ => (i, d) ∈ Used
  | _ => True

namespace App

theorem Listed.step {Used : Set (Int × Int)} {start : App} {ops : List Op} (listed : Listed Used start ops app)
    (allowed : op.CreatesIn Used) (stepped : app.step op = some app') : Listed Used start (ops ++ [op]) app' := by
  have older : ∀ n pair, app.listing n = some pair →
      ∃ i, (i, pair.2) ∈ Used ∧ toMarketId i pair.2 = n ∧ Made start (ops ++ [op]) i pair.1 pair.2 := fun n pair found => by
    obtain ⟨i, used, id, made⟩ := listed.made n pair found
    exact ⟨i, used, id, made.snoc op⟩
  refine ⟨listed.run.snoc trivial stepped, listed.inv.step stepped, ?_, ?_⟩
  · cases step_lists listed.inv stepped with
    | kept listing =>
      rw [listing]
      exact older
    | @created i instr d state busDay creates returns listing =>
      intro n pair found
      rw [listing, update_apply] at found
      split at found
      next here =>
        obtain rfl : (instr, d) = pair := Option.some.inj found
        subst creates
        exact ⟨i, allowed, here.symm, ops, app, state, busDay, [], rfl, listed.run, returns⟩
      next => exact older n pair found
  · cases step_lists listed.inv stepped with
    | kept listing posn =>
      intro a n has
      rw [listing]
      exact (posn a n has).elim (listed.posn a n) id
    | created creates returns listing posn =>
      intro a n has
      rw [listing, update_apply]
      split
      next => rfl
      next => exact listed.posn a n (posn a n has)

/-- The ids of the pairs tell their markets apart. -/
structure Identified (Used : Set (Int × Int)) (start : App) (ops : List Op) (app : App) : Prop where
  ids : ∀ p ∈ Used, ∀ q ∈ Used, toMarketId p.1 p.2 = toMarketId q.1 q.2 → p = q
  alreadyExists : ∀ p ∈ Used, ∀ instr state busDay,
    app.createMarket p.1 instr p.2 state busDay = .throw (.marketAlreadyExists instr p.2) app →
      ∃ symbol, Made start ops p.1 symbol p.2
  market : ∀ p ∈ Used, ∀ market, app.markets.find (toMarketId p.1 p.2) = some market →
    market.settlDay = p.2 ∧ Made start ops p.1 market.instr p.2
  posn : ∀ p ∈ Used, ∀ a, app.HasPosn a (toMarketId p.1 p.2) → ∃ symbol, Made start ops p.1 symbol p.2

theorem listed_make (capacity maxExecs : Nat) (Used : Set (Int × Int)) :
    Listed Used (.make capacity maxExecs) [] (.make capacity maxExecs) where
  run := .nil
  inv := .make capacity maxExecs
  made n pair found := by cases found
  posn a n has := by cases has

/-- The pair of a market that is found, when no other pair has its id. -/
theorem Listed.identified {Used : Set (Int × Int)} {start : App} {ops : List Op} (listed : Listed Used start ops app)
    (apart : ∀ p ∈ Used, ∀ q ∈ Used, p ≠ q → Apart p q) : Identified Used start ops app := by
  have ids : ∀ p ∈ Used, ∀ q ∈ Used, toMarketId p.1 p.2 = toMarketId q.1 q.2 → p = q := by
    intro p usedP q usedQ same
    by_contra differ
    exact apart_iff.mp (apart p usedP q usedQ differ) same
  have found : ∀ p ∈ Used, ∀ pair, app.listing (toMarketId p.1 p.2) = some pair → pair.2 = p.2 ∧ Made start ops p.1 pair.1 p.2 := by
    intro p used pair shown
    obtain ⟨i, usedI, id, made⟩ := listed.made _ pair shown
    obtain rfl : (i, pair.2) = p := ids _ usedI p used id
    exact ⟨rfl, made⟩
  refine ⟨ids, ?_, ?_, ?_⟩
  · intro p used instr state busDay exists_
    simp only [createMarket] at exists_
    split at exists_
    next => cases exists_
    next =>
      split at exists_
      next present =>
        obtain ⟨market, shown⟩ := Option.isSome_iff_exists.mp present
        exact ⟨_, (found p used market.pair (by rw [App.listing, shown]; rfl)).2⟩
      next =>
        split at exists_
        next => cases exists_
        next => cases exists_
  · intro p used market shown
    exact found p used market.pair (by rw [App.listing, shown]; rfl)
  · intro p used a has
    obtain ⟨pair, shown⟩ := Option.isSome_iff_exists.mp (listed.posn a _ has)
    exact ⟨_, (found p used pair shown).2⟩

/-- The ids identify the markets of a set of pairs exactly when the bits that they keep do. -/
theorem identified_iff (capacity maxExecs : Nat) (Used : Set (Int × Int)) :
    (∀ ops app, Run App.step (fun _ op => op.CreatesIn Used) (.make capacity maxExecs) ops app →
      Identified Used (.make capacity maxExecs) ops app) ↔
    ∀ p ∈ Used, ∀ q ∈ Used, p ≠ q → Apart p q := by
  constructor
  · intro identified p usedP q usedQ differ
    rw [apart_iff]
    exact fun same => differ ((identified [] _ .nil).ids p usedP q usedQ same)
  · intro apart ops app run
    have listed : Listed Used (.make capacity maxExecs) ops app :=
      run.invariant_history (fun _ _ _ _ listed allowed stepped => listed.step allowed stepped)
        (listed_make capacity maxExecs Used)
    exact listed.identified apart

/-- A settlement day in 2106 has the bits of no settlement day: its market cannot be created, and a lookup of it finds
the market without one.  So it is for instruments whose ids are 2^16 apart. -/
theorem second_exists :
    let eurusd : Symbol := .assign (bytes "EURUSD")
    let gbpusd : Symbol := .assign (bytes "GBPUSD")
    toMarketId 1 0 = toMarketId 1 2490368 ∧ ∃ app,
      Run App.step (fun _ _ => True) (.make 8 4) [.createMarket 1 eurusd 0 0 0] app ∧
      app.createMarket 1 eurusd 2490368 0 2490000 = .throw (.marketAlreadyExists eurusd 2490368) app ∧
      (app.markets.find (toMarketId 1 2490368)).map Market.settlDay = some 0 ∧
      app.createMarket 65537 gbpusd 0 0 2490000 = .throw (.marketAlreadyExists gbpusd 0) app ∧
      (app.markets.find (toMarketId 65537 0)).map Market.instr = some eurusd := by
  intro eurusd gbpusd
  have made : ∃ app ∈ Run.exec App.step (fun _ _ => True) (.make 8 4) [.createMarket 1 eurusd 0 0 0],
      app.createMarket 1 eurusd 2490368 0 2490000 = .throw (.marketAlreadyExists eurusd 2490368) app ∧
      (app.markets.find (toMarketId 1 2490368)).map Market.settlDay = some 0 ∧
      app.createMarket 65537 gbpusd 0 0 2490000 = .throw (.marketAlreadyExists gbpusd 0) app ∧
      (app.markets.find (toMarketId 65537 0)).map Market.instr = some eurusd := by decide
  obtain ⟨app, done, facts⟩ := made
  exact ⟨by decide, app, .of_exec done, facts⟩

end App

end Swirly
