import Swirly.Verified.Atomic
import Swirly.Verified.App.Trades
import Swirly.Verified.ByReference
import Swirly.Verified.OrderLedger

/-!
# The indexes of a session

Over every run, the order list of a side, the order and the reference indexes of the sessions name the same orders, the
trade indexes name the trades that are not archived, and no call comes upon an element that is not there.
-/

namespace Swirly

open Function

/-- Calls that name orders of their market and trades of their account, and name nothing twice. -/
def Op.Proper (app : App) : Op → Prop
  | changeOrder a m _ (.ref ref) _ => ∀ p ∈ (app.sess a).refIdx.find ref, (app.order p).marketId = m
  | changeOrder _ _ _ (.ids ids) _ => ids.Nodup
  | archiveExec a e _ => (app.exec e).accnt = a
  | archiveTrades _ _ ids _ => ids.Nodup
  | _ => True

instance (app : App) (op : Op) : Decidable (op.Proper app) :=
  match op with
  | .changeOrder a m _ (.ref ref) _ =>
    inferInstanceAs (Decidable (∀ p ∈ (app.sess a).refIdx.find ref, (app.order p).marketId = m))
  | .changeOrder _ _ _ (.ids ids) _ => inferInstanceAs (Decidable ids.Nodup)
  | .archiveExec a e _ => inferInstanceAs (Decidable ((app.exec e).accnt = a))
  | .archiveTrades _ _ ids _ => inferInstanceAs (Decidable ids.Nodup)
  | .sess .. | .createMarket .. | .updateMarket .. | .createOrder .. | .changeOrder _ _ _ (.id _) _ | .createTrade ..
  | .archiveTrade .. | .pop => .isTrue trivial

namespace App

variable {app app' : App} {op : Op} {news : List Exec} {es : List ExecPtr} {m : Int}

/-- The trade index of a session holds the trades of its account that are not archived. -/
structure TradesIndexed (app : App) : Prop where
  find : ∀ a k e, (app.view.trades a).find k = some e ↔
    app.Trade e ∧ (app.exec e).accnt = a ∧ (app.exec e).key = k ∧ k ∉ app.mq.archived
  archived : ∀ k ∈ app.mq.archived, ∃ e, app.Trade e ∧ (app.exec e).key = k

theorem TradesIndexed.congr (indexed : app.TradesIndexed) (trades : app'.view.trades = app.view.trades)
    (execs : app'.execs = app.execs) (archived : app'.mq.archived = app.mq.archived) : app'.TradesIndexed := by
  obtain ⟨exec, trade⟩ := Trade.congr execs
  exact
    { find := fun a k e => by rw [trades, indexed.find, archived, exec, trade]
      archived := fun k member => by
        obtain ⟨e, tradeE, key⟩ := indexed.archived k (archived ▸ member)
        exact ⟨e, (trade e).mpr tradeE, (exec e).symm ▸ key⟩ }

/-- New trades have keys that were never archived. -/
theorem TradesIndexed.filed (sound : app.TradesSound) (indexed : app.TradesIndexed) (filed : Filed app app' news es)
    (numbered : Numbered app app' news m) : app'.TradesIndexed := by
  have archived : app'.mq.archived = app.mq.archived := filed.journaled.archived
  have old : ∀ e, app.Trade e → app'.Trade e ∧ (app'.exec e).unstamped = (app.exec e).unstamped := by
    intro e trade
    obtain ⟨x, present⟩ := Option.isSome_iff_exists.mp trade.present
    obtain ⟨live, same⟩ := filed.old (OrdMap.lt_fresh present)
    refine ⟨⟨live.trans trade.present, ?_⟩, same⟩
    rw [Exec.eq_posn same]
    exact trade.state
  exact
    { find := fun a k e => by
        rw [sound.find_trades filed numbered, indexed.find, archived]
        constructor
        · intro either
          cases either with
          | inl before =>
            obtain ⟨trade, accnt, key, kept⟩ := before
            obtain ⟨trade', same⟩ := old e trade
            rw [Exec.eq_posn same]
            exact ⟨trade', accnt, key, kept⟩
          | inr made =>
            obtain ⟨member, state, accnt, key⟩ := made
            have new := filed.addresses.mem_iff.mp member
            have trade : app'.Trade e := ⟨(filed.entered.live e).trans (app.present_newAddresses news e new), state⟩
            refine ⟨trade, accnt, key, fun gone => ?_⟩
            obtain ⟨d, tradeD, keyD⟩ := indexed.archived k gone
            cases numbered.classify filed trade with
            | inl before =>
              obtain ⟨i, -, rfl⟩ := List.mem_map.mp new
              exact absurd before.1 (by omega)
            | inr fresh =>
              obtain ⟨i, -, -, market, id⟩ := fresh
              exact sound.fresh_key tradeD market id (keyD.trans key.symm)
        · intro now
          obtain ⟨trade, accnt, key, kept⟩ := now
          cases numbered.classify filed trade with
          | inl before =>
            obtain ⟨-, tradeE, same⟩ := before
            rw [Exec.eq_posn same] at accnt key
            exact .inl ⟨tradeE, accnt, key, kept⟩
          | inr fresh =>
            obtain ⟨i, rfl, small, -⟩ := fresh
            refine .inr ⟨filed.addresses.mem_iff.mpr ?_, trade.state, accnt, key⟩
            exact List.mem_map_of_mem (List.mem_range.mpr small)
      archived := fun k member => by
        obtain ⟨e, trade, key⟩ := indexed.archived k (archived ▸ member)
        obtain ⟨trade', same⟩ := old e trade
        refine ⟨e, trade', ?_⟩
        rw [Exec.eq_posn same]
        exact key }

/-- Trades of the account leave its index, and no other trade has their keys. -/
theorem TradesIndexed.archive (sound : app.TradesSound) (indexed : app.TradesIndexed) {a : Symbol} {ids : List Int}
    {mq : MsgQueue} (view : app'.view = archive { app.view with mq } a m ids)
    (archived : mq.archived = app.mq.archived ++ (ids.filter fun id => id ≠ 0).map (idKey m)) (execs : app'.execs = app.execs)
    (owner : ∀ id ∈ ids, ∃ e, app.Trade e ∧ (app.exec e).accnt = a ∧ (app.exec e).key = idKey m id) : app'.TradesIndexed := by
  obtain ⟨exec, trade⟩ := Trade.congr execs
  have posted : app'.mq.archived = app.mq.archived ++ (ids.filter fun id => id ≠ 0).map (idKey m) :=
    (congrArg MsgQueue.archived (congrArg View.mq view)).trans archived
  have nonzero : ∀ id ∈ ids, idKey m id ∈ (ids.filter fun id => id ≠ 0).map (idKey m) := by
    intro id member
    obtain ⟨e, tradeE, -, key⟩ := owner id member
    have bounded := (sound.bounded e tradeE).1
    rw [(idKey_inj.mp key).2] at bounded
    exact List.mem_map_of_mem (List.mem_filter.mpr ⟨member, decide_eq_true (by omega)⟩)
  exact
    { find := fun b k e => by
        rw [view, find_archive, exec, trade, posted, List.mem_append, not_or]
        split
        next gone =>
          obtain ⟨-, member⟩ := gone
          obtain ⟨id, listed, rfl⟩ := List.mem_map.mp member
          exact iff_of_false nofun fun kept => kept.2.2.2.2 (nonzero id listed)
        next kept =>
          rw [show ({ app.view with mq } : View).trades b = app.view.trades b from rfl, indexed.find]
          constructor
          · intro before
            obtain ⟨tradeE, accnt, key, stays⟩ := before
            refine ⟨tradeE, accnt, key, stays, fun leaves => ?_⟩
            obtain ⟨id, listed, rfl⟩ := List.mem_map.mp leaves
            have listed := (List.mem_filter.mp listed).1
            obtain ⟨d, tradeD, own, keyD⟩ := owner id listed
            obtain rfl := sound.unique d e tradeD tradeE (keyD.trans key.symm)
            exact kept ⟨accnt.symm.trans own, List.mem_map_of_mem listed⟩
          · intro now
            exact ⟨now.1, now.2.1, now.2.2.1, now.2.2.2.1⟩
      archived := fun k member => by
        rw [posted] at member
        cases List.mem_append.mp member with
        | inl before =>
          obtain ⟨e, tradeE, key⟩ := indexed.archived k before
          exact ⟨e, (trade e).mpr tradeE, (exec e).symm ▸ key⟩
        | inr leaves =>
          obtain ⟨id, listed, rfl⟩ := List.mem_map.mp leaves
          obtain ⟨e, tradeE, -, key⟩ := owner id (List.mem_filter.mp listed).1
          exact ⟨e, (trade e).mpr tradeE, (exec e).symm ▸ key⟩ }

theorem Effect.tradesIndexed (inv : app.Inv) (sound : app.TradesSound) (indexed : app.TradesIndexed)
    (own : ∀ a e now, op = .archiveExec a e now → (app.exec e).accnt = a) (effect : Effect app op app') :
    app'.TradesIndexed := by
  cases effect with
  | idle grown view execs =>
    exact indexed.congr (by rw [view]) execs (by rw [show app'.mq = app.mq from congrArg View.mq view])
  | posted view archived execs silent =>
    exact indexed.congr (by rw [view]) execs
      ((congrArg MsgQueue.archived (congrArg View.mq view)).trans archived)
  | created checked opened commits ledger =>
    obtain ⟨filed, -, numbered⟩ := created_filed inv incoming_new rfl opened commits ledger
    exact indexed.filed sound filed numbered
  | changed held journaled changes execs =>
    obtain ⟨filed, -, numbered⟩ := changed_filed (fun p member => (held p member).1.accnt) journaled changes execs
    exact indexed.filed sound filed numbered
  | traded traded =>
    cases traded.filed rfl rfl rfl rfl rfl with
    | inl alone => exact indexed.filed sound alone.2.1 alone.2.2.2
    | inr paired => exact indexed.filed sound paired.2.2.1 paired.2.2.2.2
  | archived view archived owner execs silent =>
    refine indexed.archive sound view archived execs fun id member => ?_
    cases owner id member with
    | inl listed =>
      obtain ⟨k, e, found, either⟩ := listed
      obtain ⟨trade, accnt, key⟩ := sound.indexed _ k e found
      exact ⟨e, trade, accnt, either.elim key.trans fun same => same⟩
    | inr given =>
      obtain ⟨e, now, rfl, state, key⟩ := given
      refine ⟨e, ⟨?_, state⟩, own _ e now rfl, key⟩
      cases found : app.execs.find e with
      | some x => rfl
      | none =>
        rw [App.exec, OrdMap.get, found] at state
        cases state

theorem TradesIndexed.step (inv : app.Inv) (sound : app.TradesSound) (indexed : app.TradesIndexed)
    (own : ∀ a e now, op = .archiveExec a e now → (app.exec e).accnt = a) (stepped : app.step op = some app') :
    app'.TradesIndexed := by
  obtain ⟨app₀, view, execs, inv₀, effect, -⟩ := step_effect inv stepped
  have indexed₀ : app₀.TradesIndexed := indexed.congr (by rw [view]) execs (congrArg (fun v : View => v.mq.archived) view)
  refine effect.tradesIndexed inv₀ (sound.of_view view execs) indexed₀ fun a e now archives => ?_
  rw [(Trade.congr execs).1]
  exact own a e now archives

theorem tradesIndexed_make (capacity maxExecs : Nat) : (App.make capacity maxExecs).TradesIndexed where
  find a k e := by
    constructor
    · intro found
      cases found
    · intro trade
      cases trade.1.present
  archived k member := by cases member

/-! ## No call faults -/

theorem changeTarget_isSome (inv : app.Inv) {a : Symbol} {change : Change} {target : Target} {now : Int}
    (proper : (Op.changeOrder a m change target now).Proper app) : (app.changeTarget a m change now target).state.isSome := by
  have one {p : OrderPtr} (held : app.Held a p) (here : (app.order p).marketId = m) :
      (app.changeOrder a m change p now).state.isSome := by
    have ended := changeOrder_spec inv held m change now
    generalize app.changeOrder a m change p now = outcome at ended
    cases ended with
    | rejected | unjournaled | committed => rfl
    | fault checked elsewhere => exact absurd here elsewhere
  cases target with
  | id id =>
    simp only [changeTarget, changeById]
    split
    next => rfl
    next p found =>
      obtain ⟨accnt, key, listed⟩ := inv.live.booked a _ p found
      exact one ⟨accnt, listed⟩ (idKey_inj.mp key).1
  | ref ref =>
    simp only [changeTarget, changeByRef]
    split
    next => rfl
    next p found =>
      obtain ⟨-, -, accnt, listed⟩ := inv.live.refs a _ p found
      exact one ⟨accnt, listed⟩ (proper p found)
  | ids ids =>
    have atomic := (changeByIds_atomic inv a m change ids now).mpr (.inr (.inr fun id twice => ?_))
    · simp only [changeTarget]
      generalize app.changeByIds a m change ids now = outcome at atomic
      cases atomic with
      | unchanged | committed => rfl
    · have once : ids.count id ≤ 1 := List.nodup_iff_count_le_one.mp proper id
      omega

/-- Sessions that a call makes first change nothing of this. -/
theorem Proper.of_view {app₀ : App} (view : app₀.view = app.view) (execs : app₀.execs = app.execs) (proper : op.Proper app) :
    op.Proper app₀ := by
  cases op with
  | changeOrder a m change target now =>
    cases target with
    | ref ref =>
      intro p found
      have refs : (app₀.sess a).refIdx = (app.sess a).refIdx := congrFun (congrArg View.refs view) a
      have order : app₀.order p = app.order p := congrArg (fun v : View => v.heap.order p) view
      rw [refs] at found
      rw [order]
      exact proper p found
    | id => trivial
    | ids => exact proper
  | archiveExec a e now =>
    have exec : app₀.exec e = app.exec e := (Trade.congr execs).1 e
    show (app₀.exec e).accnt = a
    rw [exec]
    exact proper
  | archiveTrades => exact proper
  | sess | createMarket | updateMarket | createOrder | createTrade | archiveTrade | pop => trivial

theorem withMarket_isSome {α : Type} {f : Outcome α} (some_ : f.state.isSome) : (app.withMarket m f).state.isSome := by
  rw [withMarket]
  split
  next => exact some_
  next => rfl

/-- Every lookup of the call finds its element. -/
theorem step_isSome (inv : app.Inv) (proper : op.Proper app) : (app.step op).isSome := by
  cases op with
  | sess | pop => rfl
  | createMarket instrId instr settlDay state busDay =>
    simp only [step, call, Outcome.state_map, createMarket]
    repeat' split
    all_goals rfl
  | updateMarket m state =>
    refine withMarket_isSome ?_
    simp only [Outcome.state_map, updateMarket]
    split <;> rfl
  | createOrder a m ref side lots ticks minLots now busDay =>
    refine withMarket_isSome ?_
    have created := createOrder_spec (inv.ensureSess a) a m ref side lots ticks minLots now busDay
    rw [Outcome.state_map]
    generalize (app.ensureSess a).createOrder a m ref side lots ticks minLots now busDay = outcome at created
    cases created <;> rfl
  | changeOrder a m change target now =>
    refine withMarket_isSome ?_
    rw [Outcome.state_map]
    exact changeTarget_isSome (inv.ensureSess a) (Proper.of_view (view_ensureSess a) rfl proper)
  | createTrade a m ref side lots ticks liqInd cpty created =>
    refine withMarket_isSome ?_
    have traded := createTrade_spec (inv.ensureSess a) a m ref side lots ticks liqInd cpty created
    rw [Outcome.state_map]
    generalize (app.ensureSess a).createTrade a m ref side lots ticks liqInd cpty created = outcome at traded
    cases traded <;> rfl
  | archiveExec a e now =>
    simp only [step, call, Outcome.state_map, archiveExec, doArchiveTrade]
    split
    next => rfl
    next => split <;> rfl
  | archiveTrade a m id now =>
    simp only [step, call, Outcome.state_map, archiveTrade, doArchiveTrade]
    split
    next => rfl
    next => split <;> rfl
  | archiveTrades a m ids now =>
    simp only [step, call, Outcome.state_map]
    have archived := archiveTrades_spec (app.ensureSess a) a m ids now
    generalize (app.ensureSess a).archiveTrades a m ids now = outcome at archived
    cases archived with
    | rejected | unjournaled | committed => rfl
    | fault found journal repeats => exact absurd proper repeats

/-! ## Runs -/

/-- The order lists of the sides and the indexes of the sessions agree. -/
structure Indexed (app : App) : Prop where
  /-- An order is in a side when it has open lots. -/
  book : ∀ p, (∃ m s, p ∈ (app.view.side m s).orders) ↔ (app.heap.orders.find p).isSome ∧ 0 < (app.order p).resdLots
  /-- It is then in the order index of the session of its account, under its key, and in no other. -/
  orders : ∀ a k p, (app.sess a).orders.find k = some p ↔
    (∃ m s, p ∈ (app.view.side m s).orders) ∧ (app.order p).accnt = a ∧ (app.order p).key = k
  refs : ∀ a r p, (app.sess a).refIdx.find r = some p ↔
    (∃ m s, p ∈ (app.view.side m s).orders) ∧ (app.order p).accnt = a ∧ (app.order p).ref.data = r ∧ r ≠ []
  distinct : ∀ p q m s n t, p ∈ (app.view.side m s).orders → q ∈ (app.view.side n t).orders →
    (app.order p).accnt = (app.order q).accnt → (app.order p).ref = (app.order q).ref → (app.order p).ref.data ≠ [] → p = q
  trades : ∀ a k e, (app.sess a).trades.find k = some e ↔
    app.Trade e ∧ (app.exec e).accnt = a ∧ (app.exec e).key = k ∧ k ∉ app.mq.archived

theorem Inv.indexed (inv : app.Inv) (sound : app.view.AllSound) (filed : app.view.RefsFiled) (indexed : app.TradesIndexed) :
    app.Indexed := by
  have home : ∀ p, (∃ m s, p ∈ (app.view.side m s).orders) →
      p ∈ (app.view.side (app.order p).marketId (app.order p).side).orders := by
    intro p somewhere
    obtain ⟨m, s, member⟩ := somewhere
    obtain ⟨market, side⟩ := inv.live.home member
    rw [show (app.order p).marketId = m from market, show (app.order p).side = s from side]
    exact member
  exact
    { book := listed_iff inv sound
      orders := fun a k p => by
        rw [show (app.sess a).orders.find k = (app.view.orders a).find k from rfl, inv.live.find_iff]
        constructor
        · intro found
          exact ⟨⟨_, _, found.2.2⟩, found.1, found.2.1⟩
        · intro listed
          exact ⟨listed.2.1, listed.2.2, home p listed.1⟩
      refs := fun a r p => by
        constructor
        · intro found
          obtain ⟨nonempty, ref, accnt, listed⟩ := inv.live.refs a r p found
          exact ⟨⟨_, _, listed⟩, accnt, ref, nonempty⟩
        · intro listed
          obtain ⟨somewhere, accnt, ref, nonempty⟩ := listed
          exact Refers.find filed ⟨nonempty, ref, accnt, home p somewhere⟩
      distinct := fun p q m s n t memberP memberQ accnt ref nonempty => by
        have refersP : app.Refers (app.order p).accnt (app.order p).ref.data p := ⟨nonempty, rfl, rfl, home p ⟨m, s, memberP⟩⟩
        have refersQ : app.Refers (app.order p).accnt (app.order p).ref.data q :=
          ⟨nonempty, by rw [ref], accnt.symm, home q ⟨n, t, memberQ⟩⟩
        exact Option.some.inj ((refersP.find filed).symm.trans (refersQ.find filed))
      trades := indexed.find }

/-- Over every run the indexes agree, and the next call does not fault either. -/
theorem indexes_agree {capacity maxExecs : Nat} {ops : List Op}
    (run : Run App.step (fun app op => op.Positive ∧ op.ShortRef ∧ op.Proper app) (App.make capacity maxExecs) ops app) :
    app.Indexed ∧ ∀ op : Op, op.Proper app → (app.step op).isSome := by
  have kept : app.Inv ∧ app.view.AllSound ∧ app.view.RefsFiled ∧ app.TradesSound ∧ app.TradesIndexed := by
    refine run.invariant (I := fun t => t.Inv ∧ t.view.AllSound ∧ t.view.RefsFiled ∧ t.TradesSound ∧ t.TradesIndexed)
      (fun t op u kept allowed stepped => ?_)
      ⟨.make _ _, (fun _ present => by cases present), refsFiled_make _ _, tradesSound_make _ _, tradesIndexed_make _ _⟩
    obtain ⟨inv, sound, filed, trades, indexed⟩ := kept
    obtain ⟨positive, short, proper⟩ := allowed
    obtain ⟨t₀, view, execs, inv₀, effect, -⟩ := step_effect inv stepped
    exact ⟨inv.step stepped, effect.allSound inv₀ (view ▸ sound) positive, effect.refsFiled inv₀ (view ▸ filed) short,
      trades.step inv stepped, indexed.step inv trades (fun a e now archives => by subst archives; exact proper) stepped⟩
  obtain ⟨inv, sound, filed, -, indexed⟩ := kept
  exact ⟨inv.indexed sound filed indexed, fun op proper => step_isSome inv proper⟩

/-- A self-trade, a revision by reference, a trade between accounts and one that is archived. -/
theorem indexes_agree_self :
    let a : Symbol := .assign (bytes "MARAYL")
    let b : Symbol := .assign (bytes "GOSAYL")
    let m := toMarketId 1 0
    ∃ app, Run App.step (fun app op => op.Positive ∧ op.ShortRef ∧ op.Proper app) (App.make 16 16)
        [.createMarket 1 (.assign (bytes "EURUSD")) 0 0 0, .createOrder a m (bytes "apple") .sell 10 5 0 2 0,
          .createOrder a m [] .buy 3 5 0 3 0, .changeOrder a m (.revise 8) (.ref (bytes "apple")) 4,
          .createOrder b m (bytes "apple") .buy 2 5 0 5 0, .archiveTrades a m [3, 4] 6] app ∧
      app.Indexed ∧ (app.sess a).refIdx.find (bytes "apple") = some 0 ∧ (app.sess a).trades.entries.length = 1 ∧
      (app.step (.changeOrder a m .cancel (.ids [1]) 7)).isSome := by
  intro a b m
  have made : ∃ app ∈ Run.exec App.step (fun app op => op.Positive ∧ op.ShortRef ∧ op.Proper app) (App.make 16 16)
      [.createMarket 1 (.assign (bytes "EURUSD")) 0 0 0, .createOrder a m (bytes "apple") .sell 10 5 0 2 0,
        .createOrder a m [] .buy 3 5 0 3 0, .changeOrder a m (.revise 8) (.ref (bytes "apple")) 4,
        .createOrder b m (bytes "apple") .buy 2 5 0 5 0, .archiveTrades a m [3, 4] 6],
      (app.sess a).refIdx.find (bytes "apple") = some 0 ∧ (app.sess a).trades.entries.length = 1 := by decide
  obtain ⟨app, done, ref, trades⟩ := made
  obtain ⟨indexed, progress⟩ := indexes_agree (.of_exec done)
  refine ⟨app, .of_exec done, indexed, ref, trades, progress _ (List.nodup_singleton 1)⟩

end App

end Swirly
