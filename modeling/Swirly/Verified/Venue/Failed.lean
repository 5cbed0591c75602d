import Swirly.Verified.Venue.Alike

/-!
# Calls that fail

A call that fails has used up ids of its market, and that is all: afterwards the exchange goes on as if the call had not been
made, only that the ids of the market which are given out from now on are higher.
-/

namespace Swirly

open Function

/-- The report names ids up to the last one of its market. -/
def Exec.UpTo (maxId : Int → Int) (e : Exec) : Prop :=
  e.id ≤ maxId e.marketId ∧ e.orderId ≤ maxId e.marketId ∧ e.matchId ≤ maxId e.marketId

namespace Venue

/-- The venue holds ids up to the last one of each market. -/
structure UpTo (maxId : Int → Int) (v : Venue) : Prop where
  nonneg : ∀ m, 0 ≤ maxId m
  book : ∀ m s, ∀ o ∈ v.book m s, o.marketId = m ∧ o.id ≤ maxId m
  history : ∀ a, ∀ e ∈ v.history a, e.UpTo maxId
  trades : ∀ a k e, v.trades a k = some e → e.key = k ∧ e.UpTo maxId

/-- What the venue holds has ids that were given out. -/
def Bounded (v : Venue) : Prop := v.mq.Sound ∧ v.UpTo v.maxId

/-- A change of the venue that brings no other ids into it. -/
structure Numbers (maxId : Int → Int) (f : Venue → Venue) : Prop where
  mq : ∀ v, (f v).mq = v.mq
  kept : ∀ v, (f v).maxId = v.maxId
  upTo : ∀ v, v.UpTo maxId → (f v).UpTo maxId

variable {v w : Venue} {m n id : Int} {a cpty : Symbol} {s : Side} {o : Order} {e : Exec} {maxId maxId' : Int → Int}
  {f g : Venue → Venue} {d : Deal} {ds : List Deal} {now : Int} {os : List Order} {change : App.Change}

namespace Numbers

theorem refl : Numbers maxId fun v => v := ⟨fun _ => rfl, fun _ => rfl, fun _ upTo => upTo⟩

theorem comp (second : Numbers maxId g) (first : Numbers maxId f) : Numbers maxId fun v => g (f v) where
  mq v := (second.mq _).trans (first.mq v)
  kept v := (second.kept _).trans (first.kept v)
  upTo v upTo := second.upTo _ (first.upTo v upTo)

theorem foldl {α : Type} {f : Venue → α → Venue} {xs : List α} (each : ∀ x ∈ xs, Numbers maxId fun v => f v x) :
    Numbers maxId fun v => xs.foldl f v := by
  induction xs with
  | nil => exact refl
  | cons x xs inductionHypothesis =>
    obtain ⟨first, rest⟩ := List.forall_mem_cons.mp each
    exact (inductionHypothesis rest).comp first

theorem setLast (lots ticks time : Int) : Numbers maxId fun v => v.setLast m lots ticks time :=
  ⟨fun _ => rfl, fun _ => rfl, fun _ upTo => ⟨upTo.nonneg, upTo.book, upTo.history, upTo.trades⟩⟩

theorem push (new : e.UpTo maxId) : Numbers maxId fun v => v.push a e where
  mq _ := rfl
  kept _ := rfl
  upTo v upTo :=
    { upTo with
      history := fun b e' member => by
        simp only [Venue.push, update_apply] at member
        split at member
        next =>
          cases List.mem_cons.mp (List.mem_of_mem_take member) with
          | inl here => exact here ▸ new
          | inr old => exact upTo.history _ e' old
        next => exact upTo.history b e' member }

theorem file (new : e.UpTo maxId) : Numbers maxId fun v => v.file a m e where
  mq _ := rfl
  kept _ := rfl
  upTo v upTo :=
    { (push new).upTo v upTo with
      book := upTo.book
      trades := fun b k e' found => by
        simp only [Venue.file, Venue.push, update_apply] at found
        split at found
        next =>
          rw [update_apply] at found
          split at found
          next here =>
            cases known : v.trades a e.key with
            | none =>
              rw [known] at found
              obtain rfl := Option.some.inj found
              exact ⟨here.symm, new⟩
            | some old =>
              rw [known] at found
              obtain rfl := Option.some.inj found
              exact here ▸ upTo.trades a e.key _ known
          next => exact upTo.trades a k e' found
        next => exact upTo.trades b k e' found }

/-- One side of a book becomes a list made from it. -/
theorem setBook {change : List Order → List Order}
    (made : ∀ os, ∀ o ∈ change os, (∃ o' ∈ os, o.marketId = o'.marketId ∧ o.id = o'.id) ∨
      (o.marketId = m ∧ o.id ≤ maxId m)) : Numbers maxId fun v => v.setBook m s (change (v.book m s)) where
  mq _ := rfl
  kept _ := rfl
  upTo v upTo :=
    { upTo with
      book := fun n t o member => by
        simp only [Venue.setBook, update_apply] at member
        split at member
        next here =>
          subst here
          simp only [update_apply] at member
          split at member
          next =>
            cases made _ o member with
            | inl old =>
              obtain ⟨o', listed, market, id⟩ := old
              rw [market, id]
              exact upTo.book _ _ o' listed
            | inr new => exact new
          next => exact upTo.book _ _ o member
        next => exact upTo.book _ _ o member }

theorem amend {change : Order → Order} (kept : ∀ o, (change o).marketId = o.marketId ∧ (change o).id = o.id) :
    Numbers maxId fun v => v.amend m s id change := by
  refine setBook fun os o member => .inl ?_
  cases List.mem_amend.mp member with
  | inl old => exact ⟨o, old.1, rfl, rfl⟩
  | inr changed =>
    obtain ⟨o', listed, -, made⟩ := changed
    split at made
    next => cases made
    next =>
      obtain rfl := Option.some.inj made
      exact ⟨o', listed, kept o'⟩

theorem enter (here : o.marketId = m) (new : o.id ≤ maxId m) : Numbers maxId fun v => v.enter m o := by
  by_cases done : o.done = true
  · simp only [Venue.enter, if_pos done]
    exact refl
  · simp only [Venue.enter, if_neg done]
    have entered : ∀ os, ∀ o' ∈ List.arrive (fun o : Order => composeKey o.side o.ticks) os o,
        (∃ o'' ∈ os, o'.marketId = o''.marketId ∧ o'.id = o''.id) ∨ (o'.marketId = m ∧ o'.id ≤ maxId m) := by
      intro os o' member
      cases List.mem_arrive.mp member with
      | inl new' => exact .inr (new' ▸ ⟨here, new⟩)
      | inr old => exact .inl ⟨o', old, rfl, rfl⟩
    exact setBook entered

end Numbers

/-! ## Plans -/

/-- The plan brings no ids into the venue but those that it gives out. -/
inductive Plan.Numbered (v : Venue) (m : Int) : Plan → Prop
  | refuse {e : Exception} {ids : Nat} : Numbered v m (.refuse e ids)
  | post {msgs : List Msg} {ids : Nat} {commit : Venue → Venue} {answer : Venue → Answer}
      (committed : Numbers (update v.maxId m (v.maxId m + ids)) commit) : Numbered v m (.post msgs ids commit answer)

theorem UpTo.burn (upTo : v.UpTo v.maxId) (k : Nat) : v.UpTo (v.burn m k).maxId := by
  have grown : ∀ n, v.maxId n ≤ (v.burn m k).maxId n := by
    intro n
    simp only [Venue.burn, update_apply]
    split
    next here => rw [here]; omega
    next => exact le_rfl
  have wider : ∀ {e : Exec}, e.UpTo v.maxId → e.UpTo (v.burn m k).maxId := fun upTo =>
    ⟨upTo.1.trans (grown _), upTo.2.1.trans (grown _), upTo.2.2.trans (grown _)⟩
  exact
    { nonneg := fun n => (upTo.nonneg n).trans (grown n)
      book := fun n t o member => ⟨(upTo.book n t o member).1, (upTo.book n t o member).2.trans (grown n)⟩
      history := fun a e member => wider (upTo.history a e member)
      trades := fun a k e found => ⟨(upTo.trades a k e found).1, wider (upTo.trades a k e found).2⟩ }

theorem Plan.Numbered.bounded {plan : Plan} (numbered : plan.Numbered v m) (bounded : v.Bounded) : (plan.carryOut m v).2.Bounded := by
  obtain ⟨sound, upTo⟩ := bounded
  have burnt : ∀ k, (v.burn m k).Bounded := fun k => ⟨sound, { upTo.burn k with }⟩
  cases numbered with
  | @refuse e ids => exact burnt ids
  | @post msgs ids commit answer committed =>
    cases posted : v.mq.postAll msgs with
    | none =>
      simp only [carryOut, posted]
      exact burnt ids
    | some mq =>
      have next : ({ v with mq }.burn m ids : Venue).UpTo (update v.maxId m (v.maxId m + ids)) := { upTo.burn ids with }
      simp only [carryOut, posted]
      refine ⟨?_, ?_⟩
      · rw [committed.mq, ← (MsgQueue.postAll_eq_some.mp posted).2]
        exact sound.append
      · rw [committed.kept]
        exact committed.upTo _ next

theorem Deal.ids_number {sums : App.Sums} {xs : List (Order × Int)} (member : d ∈ Deal.number sums id xs) :
    id < d.makerId ∧ d.makerId + 1 ≤ id + 2 * (Deal.number sums id xs).length := by
  induction xs generalizing sums id with
  | nil => cases member
  | cons x xs inductionHypothesis =>
    rw [Deal.number, List.length_cons]
    cases List.mem_cons.mp member with
    | inl here =>
      rw [here]
      simp only
      omega
    | inr later =>
      obtain ⟨least, most⟩ := inductionHypothesis later
      omega

theorem Numbers.settle (here : o.marketId = m) (own : o.id ≤ maxId m) (maker : d.maker.marketId = m) (makerOwn : d.maker.id ≤ maxId m)
    (ids : d.makerId + 1 ≤ maxId m) : Numbers maxId fun v => v.settle m o now d := by
  have amended : Numbers maxId fun v => v.amend m o.side.opposite d.maker.id fun o => o.trade d.lots d.maker.ticks now :=
    .amend fun o => ⟨rfl, rfl⟩
  have makerUpTo : (d.makerExec o now).UpTo maxId := by
    rw [Exec.UpTo, show (d.makerExec o now).marketId = m from maker]
    exact ⟨(Int.le_add_one le_rfl).trans ids, makerOwn, ids⟩
  have takerUpTo : (d.takerExec o now).UpTo maxId := by
    rw [Exec.UpTo, show (d.takerExec o now).marketId = m from here]
    exact ⟨ids, own, (Int.le_add_one le_rfl).trans ids⟩
  exact (Numbers.file takerUpTo).comp ((Numbers.file makerUpTo).comp ((Numbers.setLast d.lots d.maker.ticks now).comp amended))

theorem orderPlan_numbered (upTo : v.UpTo v.maxId) {terms : Symbol × Int × Nat} {ref : Bytes} {side : Side}
    {lots ticks minLots busDay : Int} : (v.orderPlan a m terms ref side lots ticks minLots now busDay).Numbered v m := by
  rw [orderPlan]
  cases v.admission a terms ref lots minLots busDay with
  | some e => exact .refuse
  | none =>
    obtain ⟨o, made⟩ : ∃ o, o = Order.make a m terms.1 terms.2.1 (v.maxId m + 1) ref side lots ticks minLots now := ⟨_, rfl⟩
    have here : o.marketId = m := by rw [made]; rfl
    have first : o.id = v.maxId m + 1 := by rw [made]; rfl
    have nonneg := upTo.nonneg m
    simp only [← made]
    refine .post ?_
    obtain ⟨maxId, given⟩ : ∃ maxId, maxId = update v.maxId m (v.maxId m + (1 + 2 * (v.deals m o).length : Nat)) := ⟨_, rfl⟩
    have last : maxId m = v.maxId m + (1 + 2 * (v.deals m o).length : Nat) := by rw [given, update_self]
    have own : o.id ≤ maxId m := by omega
    rw [← given]
    have settled : Numbers maxId fun v' => (v.deals m o).foldl (fun v' d => v'.settle m o now d) v' := by
      refine .foldl fun d member => ?_
      obtain ⟨maker, makerId⟩ := upTo.book m _ _ (mem_deals member)
      have ids := (Deal.ids_number member).2
      rw [show Deal.number ⟨0, 0, 0, 0⟩ o.id _ = v.deals m o from rfl] at ids
      exact .settle here own maker (by omega) (by omega)
    have reported : (Exec.make o o.id now).UpTo maxId := by
      rw [Exec.UpTo, show (Exec.make o o.id now).marketId = m from here]
      exact ⟨own, own, by rw [show (Exec.make o o.id now).matchId = 0 from rfl]; omega⟩
    have entered : Numbers maxId fun v' => v'.enter m (o.dealt now (v.deals m o)) := by
      refine .enter ((dealt_same o now _).1.trans here) ?_
      rw [Order.dealt]
      split <;> exact own
    exact settled.comp ((Numbers.push reported).comp entered)

theorem changeReports_upTo (nonneg : 0 ≤ id) (home : ∀ o ∈ os, o.marketId = m ∧ o.id ≤ id) (last : maxId m = id + os.length) :
    ∀ e ∈ changeReports change now id os, e.UpTo maxId := by
  induction os generalizing id with
  | nil => simp [changeReports]
  | cons o os inductionHypothesis =>
    obtain ⟨⟨here, own⟩, rest⟩ := List.forall_mem_cons.mp home
    rw [List.length_cons] at last
    rw [changeReports]
    refine List.forall_mem_cons.mpr ⟨?_, ?_⟩
    · have fields : ∀ e : Exec, (change.report e).marketId = e.marketId ∧ (change.report e).id = e.id ∧
          (change.report e).orderId = e.orderId ∧ (change.report e).matchId = e.matchId := by
        intro e
        cases change <;> exact ⟨rfl, rfl, rfl, rfl⟩
      obtain ⟨market, ownId, order, counterpart⟩ := fields (Exec.make o (id + 1) now)
      rw [Exec.UpTo, market, ownId, order, counterpart]
      simp only [Exec.make, here]
      omega
    · exact inductionHypothesis (by omega) (fun o member => ⟨(rest o member).1, by have := (rest o member).2; omega⟩) (by omega)

theorem changePlan_numbered (upTo : v.UpTo v.maxId) (listed : ∀ o ∈ os, o ∈ v.orders m) :
    (v.changePlan m change now os).Numbered v m := by
  have home : ∀ o ∈ os, o.marketId = m ∧ o.id ≤ v.maxId m := by
    intro o member
    cases List.mem_append.mp (listed o member) with
    | inl bid => exact upTo.book m .buy o bid
    | inr offer => exact upTo.book m .sell o offer
  have reports : ∀ e ∈ changeReports change now (v.maxId m) os, e.UpTo (update v.maxId m (v.maxId m + os.length)) :=
    changeReports_upTo (upTo.nonneg m) home (update_self ..)
  refine .post (.foldl fun x member => ?_)
  have amended : Numbers (update v.maxId m (v.maxId m + os.length)) fun v => v.amend m x.1.side x.1.id (changed change now) := by
    refine .amend fun o => ?_
    cases change <;> exact ⟨rfl, rfl⟩
  exact (Numbers.push (reports x.2 (List.of_mem_zip member).2)).comp amended

theorem tradePlan_numbered (upTo : v.UpTo v.maxId) {terms : Symbol × Int × Nat} {ref : Bytes} {side : Side}
    {lots ticks created : Int} {liqInd : LiqInd} :
    (v.tradePlan a m terms ref side lots ticks liqInd cpty created).Numbered v m := by
  have nonneg := upTo.nonneg m
  obtain ⟨trade, made⟩ : ∃ trade, trade = Exec.makeManual m terms.1 terms.2.1 (v.maxId m + 1) a ref side lots ticks
    (v.posn a m).netLots (v.posn a m).netCost liqInd cpty created := ⟨_, rfl⟩
  simp only [tradePlan, ← made]
  have own : ∀ k : Nat, 1 ≤ k → (trade.posn 0 0).UpTo (update v.maxId m (v.maxId m + k)) := by
    intro k one
    rw [made, Exec.UpTo]
    simp only [Exec.posn, Exec.makeManual, update_self]
    omega
  split
  next => exact .post (.file (own 1 le_rfl))
  next =>
    have other : ((trade.opposite (v.maxId m + 2)).posn 0 0).UpTo (update v.maxId m (v.maxId m + (2 : Nat))) := by
      rw [made, Exec.UpTo]
      simp only [Exec.posn, Exec.opposite, Exec.makeManual, update_self]
      omega
    exact .post ((Numbers.file (own 2 (by omega))).comp (Numbers.file other))

theorem idsPlan_numbered (upTo : v.UpTo v.maxId) {ids : List Int} : (v.idsPlan a m change ids now).Numbered v m := by
  rw [idsPlan]
  cases staged : v.stage a m change ids with
  | mk n result =>
    cases result with
    | error e => exact .refuse
    | ok os => exact changePlan_numbered upTo (mem_stage staged)

theorem refPlan_numbered (upTo : v.UpTo v.maxId) {ref : Bytes} : (v.refPlan a m change ref now).Numbered v m := by
  rw [refPlan]
  cases found : v.findRef a m ref with
  | none => exact .refuse
  | some o =>
    cases checked : change.check o with
    | some e =>
      simp only [checked]
      exact .refuse
    | none =>
      simp only [checked]
      exact changePlan_numbered upTo (by simpa using List.mem_of_find?_eq_some found)

theorem archivePlan_numbered {ids : List Int} : (v.archivePlan a m ids now).Numbered v m := by
  rw [archivePlan]
  cases ids.find? fun id => (v.trades a (idKey m id)).isNone with
  | some id => exact .refuse
  | none =>
    refine .post ⟨fun _ => rfl, fun _ => rfl, fun w upTo => { upTo with trades := fun b k e found => ?_ }⟩
    simp only [unfile, update_apply] at found
    split at found
    next =>
      beta_reduce at found
      split at found
      next => cases found
      next => exact upTo.trades a k e found
    next => exact upTo.trades b k e found

theorem createMarketPlan_numbered {instr : Symbol} {settlDay busDay : Int} {state : Nat} :
    (v.createMarketPlan m instr settlDay state busDay).Numbered v m := by
  rw [createMarketPlan]
  split
  next => exact .refuse
  next =>
    split
    next => exact .refuse
    next => exact .post ⟨fun _ => rfl, fun _ => rfl, fun _ upTo => { upTo with }⟩

theorem marketPlan_numbered {plan : Symbol × Int × Nat → Plan} (each : ∀ terms, (plan terms).Numbered v m) :
    (v.marketPlan m plan).Numbered v m := by
  rw [marketPlan]
  cases v.terms m with
  | none => exact .refuse
  | some terms => exact each terms

variable {c : Call}

theorem plan_numbered {plan : Plan} (upTo : v.UpTo v.maxId) (names : c.market = some m) (planned : c.plan v = some plan) :
    plan.Numbered v m := by
  cases c with
  | sess => cases names
  | pop => cases names
  | createMarket =>
    obtain rfl := Option.some.inj names
    obtain rfl := Option.some.inj planned
    exact createMarketPlan_numbered
  | updateMarket =>
    obtain rfl := Option.some.inj names
    obtain rfl := Option.some.inj planned
    exact marketPlan_numbered fun _ => .post ⟨fun _ => rfl, fun _ => rfl, fun _ upTo => { upTo with }⟩
  | createOrder =>
    obtain rfl := Option.some.inj names
    obtain rfl := Option.some.inj planned
    exact marketPlan_numbered fun _ => orderPlan_numbered upTo
  | changeOrder a n change target now =>
    obtain rfl := Option.some.inj names
    cases target with
    | id =>
      obtain rfl := Option.some.inj planned
      exact marketPlan_numbered fun _ => idsPlan_numbered upTo
    | ref =>
      obtain rfl := Option.some.inj planned
      exact marketPlan_numbered fun _ => refPlan_numbered upTo
    | ids =>
      obtain rfl := Option.some.inj planned
      exact marketPlan_numbered fun _ => idsPlan_numbered upTo
  | createTrade =>
    obtain rfl := Option.some.inj names
    obtain rfl := Option.some.inj planned
    exact marketPlan_numbered fun _ => tradePlan_numbered upTo
  | archiveTrade =>
    obtain rfl := Option.some.inj names
    obtain rfl := Option.some.inj planned
    exact archivePlan_numbered
  | archiveTrades =>
    obtain rfl := Option.some.inj names
    obtain rfl := Option.some.inj planned
    exact archivePlan_numbered

/-- Every call leaves the venue with ids that were given out. -/
theorem bounded_call (bounded : v.Bounded) : (v.call c).2.Bounded := by
  cases names : c.market with
  | none =>
    cases c with
    | sess => exact bounded
    | pop => exact ⟨bounded.1.pop, { bounded.2 with }⟩
    | _ => cases names
  | some m =>
    obtain ⟨plan, planned, carried⟩ := call_carried bounded.1 names
    rw [carried]
    exact (plan_numbered bounded.2 names planned).bounded bounded

theorem bounded_run (bounded : v.Bounded) (cs : List Call) : (v.run cs).2.Bounded := by
  induction cs generalizing v with
  | nil => exact bounded
  | cons c cs inductionHypothesis => exact inductionHypothesis (bounded_call bounded)

theorem bounded_make (capacity maxExecs : Nat) : (make capacity maxExecs).Bounded where
  left := le_rfl
  right :=
    { nonneg := fun m => le_rfl
      book := fun m s o member => by cases member
      history := fun a e member => by cases member
      trades := fun a k e found => by cases found }

/-! ## Ids that are passed over -/

/-- A call that is refused has used up ids. -/
theorem Plan.carryOut_error {plan : Plan} {e : Exception} (failed : (plan.carryOut m v).1 = .error e) :
    ∃ k, (plan.carryOut m v).2 = v.burn m k := by
  cases plan with
  | refuse e ids => exact ⟨ids, rfl⟩
  | post msgs ids commit answer =>
    cases posted : v.mq.postAll msgs with
    | none => exact ⟨ids, by simp only [carryOut, posted]⟩
    | some mq =>
      simp only [carryOut, posted] at failed
      cases failed

theorem call_error {e : Exception} (sound : v.mq.Sound) (failed : (v.call c).1 = .error e) :
    ∃ m k, c.market = some m ∧ (v.call c).2 = v.burn m k := by
  cases names : c.market with
  | none =>
    cases c with
    | sess => cases failed
    | pop => cases failed
    | _ => cases names
  | some m =>
    obtain ⟨plan, planned, carried⟩ := call_carried sound names
    rw [carried] at failed ⊢
    obtain ⟨k, burnt⟩ := Plan.carryOut_error failed
    exact ⟨m, k, rfl, burnt⟩

/-- The ids of one market that come after `last` are higher. -/
def passOver (m last : Int) (k : Nat) (n id : Int) : Int := if n = m ∧ last < id then id + k else id

theorem passOver_injective (m last : Int) (k : Nat) (n : Int) : Injective (passOver m last k n) := by
  intro i j same
  simp only [passOver] at same
  grind

theorem passOver_zero {last : Int} (nonneg : 0 ≤ last) (m : Int) (k : Nat) (n : Int) : passOver m last k n 0 = 0 :=
  if_neg fun after => absurd after.2 (not_lt.mpr nonneg)

/-- The accounts, sides and prices stay as they are. -/
def Symmetry.skip (m last : Int) (k : Nat) (nonneg : 0 ≤ last) : Symmetry where
  accnt a := a
  id := passOver m last k
  mirrored := false
  accnt_injective := injective_id
  accnt_default := rfl
  isEmpty_accnt _ := rfl
  id_injective := passOver_injective m last k
  id_zero := passOver_zero nonneg m k

variable {k : Nat}

theorem order_skip {nonneg : 0 ≤ v.maxId m} (own : o.id ≤ v.maxId o.marketId) :
    (Symmetry.skip m (v.maxId m) k nonneg).order o = o := by
  have kept : passOver m (v.maxId m) k o.marketId o.id = o.id := if_neg fun after => by
    rw [after.1] at own
    exact absurd after.2 (not_lt.mpr own)
  simp [Symmetry.order, Symmetry.skip, Symmetry.side, Symmetry.price, kept]

theorem exec_skip {nonneg : 0 ≤ v.maxId m} (upTo : e.UpTo v.maxId) : (Symmetry.skip m (v.maxId m) k nonneg).exec e = e := by
  have kept : ∀ i, i ≤ v.maxId e.marketId → passOver m (v.maxId m) k e.marketId i = i := fun i under => if_neg fun after => by
    rw [after.1] at under
    exact absurd after.2 (not_lt.mpr under)
  simp [Symmetry.exec, Symmetry.skip, Symmetry.side, Symmetry.price, kept _ upTo.1, kept _ upTo.2.1, kept _ upTo.2.2]

/-- The venue after the failure is the venue before, with ids passed over. -/
theorem related_burn (bounded : v.Bounded) (m : Int) (k : Nat) :
    (Symmetry.skip m (v.maxId m) k (bounded.2.nonneg m)).Related v (v.burn m k) where
  capacity := rfl
  posted := rfl
  popped := rfl
  sound := bounded.1
  maxExecs := rfl
  terms := rfl
  ids n j positive := by
    simp only [Symmetry.skip, passOver, burn, update_apply]
    grind
  last n := by simp [burn, Symmetry.price, Symmetry.skip]
  book n s := by
    have kept : ∀ o ∈ v.book n s, (Symmetry.skip m (v.maxId m) k (bounded.2.nonneg m)).order o = o := fun o member =>
      order_skip (by rw [(bounded.2.book n s o member).1]; exact (bounded.2.book n s o member).2)
    rw [List.map_congr_left kept, List.map_id']
    simp [burn, Symmetry.side, Symmetry.skip]
  home n s o member := (bounded.2.book n s o member).1
  history a := by
    rw [List.map_congr_left fun e member => exec_skip (bounded.2.history a e member), List.map_id']
    rfl
  trades a n id := by
    have kept : (v.trades a (idKey n id)).map (Symmetry.skip m (v.maxId m) k (bounded.2.nonneg m)).exec = v.trades a (idKey n id) := by
      cases found : v.trades a (idKey n id) with
      | none => rfl
      | some e => exact congrArg some (exec_skip (bounded.2.trades a _ e found).2)
    -- There are no trades with ids that were not given out.
    have absent : ∀ i, v.maxId n < i → v.trades a (idKey n i) = none := by
      intro i after
      cases found : v.trades a (idKey n i) with
      | none => rfl
      | some e =>
        obtain ⟨key, own, -⟩ := bounded.2.trades a _ e found
        obtain ⟨market, same⟩ := idKey_inj.mp key
        rw [market, same] at own
        exact absurd after (not_lt.mpr own)
    rw [kept]
    show v.trades a (idKey n (passOver m (v.maxId m) k n id)) = v.trades a (idKey n id)
    rw [passOver]
    split
    next after =>
      have later : v.maxId n < id := by rw [after.1]; exact after.2
      rw [absent id later, absent (id + k) (by omega)]
    next => rfl
  posn a n := by simp [burn, Symmetry.posn, Symmetry.skip]

end Venue

namespace App

variable {capacity maxExecs : Nat} {app app' : App} {c : Venue.Call} {cs ds : List Venue.Call}
  {outs : List (Except Exception Venue.Answer)} {e : Exception}

/-- What holds of the engine after any calls. -/
theorem settled_answers (proper : (Venue.make capacity maxExecs).Proper cs)
    (answers : (App.make capacity maxExecs).answers cs = some (outs, app)) :
    app.Settled ∧ app.view.RefsFiled ∧ app.venue.Bounded := by
  have start : (App.make capacity maxExecs).venue = .make capacity maxExecs := venue_make capacity maxExecs
  rw [← start] at proper
  have settled := Settled.make capacity maxExecs
  have filed := refsFiled_make capacity maxExecs
  obtain ⟨settledLast, filedLast⟩ := answers_settled settled filed proper answers
  obtain ⟨last, run, venue⟩ := answers_seen settled filed proper
  obtain ⟨-, rfl⟩ := Prod.mk.inj (Option.some.inj (run.symm.trans answers))
  refine ⟨settledLast, filedLast, ?_⟩
  rw [venue, start]
  exact Venue.bounded_run (Venue.bounded_make capacity maxExecs) cs

/-- A call that fails is not noticed afterwards, but for the ids of its market that are passed over. -/
theorem failures_unseen (proper : (Venue.make capacity maxExecs).Proper cs)
    (answers : (App.make capacity maxExecs).answers cs = some (outs, app)) (properCall : c.Proper app.venue)
    (failed : app.call c.op = .throw e app') (properRest : app.venue.Proper ds) :
    ∃ m k, c.market = some m ∧ ∃ nonneg : 0 ≤ app.venue.maxId m,
      let S := Venue.Symmetry.skip m (app.venue.maxId m) k nonneg
      ∃ outs outs' last last', app.answers ds = some (outs, last) ∧ app'.answers (ds.map S.call) = some (outs', last') ∧
        List.Forall₂ (fun x out => S.Answers (x.1.market.getD 0) x.2 out) (ds.zip outs) outs' ∧ S.Related last.venue last'.venue := by
  obtain ⟨settled, filed, bounded⟩ := settled_answers proper answers
  have stepped : app.step c.op = some app' := by rw [step, failed]; rfl
  have seen := call_seen settled filed properCall
  rw [failed] at seen
  obtain ⟨told, venue⟩ := Prod.ext_iff.mp (Option.some.inj seen)
  obtain ⟨m, k, names, burnt⟩ := Venue.call_error bounded.1 told.symm
  have related := Venue.related_burn bounded m k
  rw [← burnt, ← show app'.venue = (app.venue.call c).2 from venue] at related
  obtain ⟨properAlike, alike, relatedLast⟩ := run_related settled filed properRest related
  obtain ⟨last, run, reached⟩ := answers_seen settled filed properRest
  obtain ⟨last', run', reached'⟩ :=
    answers_seen (settled.step stepped) (refsFiled_call settled filed properCall stepped) properAlike
  exact ⟨m, k, names, bounded.2.nonneg m, _, _, last, last', run, run', alike, by rw [reached, reached']; exact relatedLast⟩

/-- A revision of two orders stops at the second one, which does not exist; the report of the next order has the id 4. -/
theorem failures_unseen_revise :
    let a : Symbol := .assign (bytes "MARAYL")
    let b : Symbol := .assign (bytes "GOSAYL")
    let m := toMarketId 1 0
    let cs : List Venue.Call := [.createMarket 1 (.assign (bytes "EURUSD")) 0 0 0, .createOrder a m (bytes "apple") .sell 10 5 0 2 0]
    let c : Venue.Call := .changeOrder a m (.revise 8) (.ids [1, 7]) 3
    let ds : List Venue.Call := [.createOrder b m [] .buy 12 6 0 4 0, .changeOrder b m .cancel (.id 2) 5]
    ∃ outs app app' k nonneg, (App.make 16 16).answers cs = some (outs, app) ∧ app.call c.op = .throw (.orderNotFound 7) app' ∧
      let S := Venue.Symmetry.skip m (app.venue.maxId m) k nonneg
      ∃ outs outs' last last', app.answers ds = some (outs, last) ∧ app'.answers (ds.map S.call) = some (outs', last') ∧
        List.Forall₂ (fun x out => S.Answers (x.1.market.getD 0) x.2 out) (ds.zip outs) outs' ∧ S.Related last.venue last'.venue := by
  intro a b m cs c ds
  have apple : (bytes "apple").length ≤ maxRef := by decide
  have twice : [(1 : Int), 7].Nodup := by decide
  have made : ∃ x ∈ (App.make 16 16).answers cs, ∃ last ∈ (x.2.call c.op).state,
      x.2.call c.op = .throw (.orderNotFound 7) last := by decide +kernel
  obtain ⟨x, answers, app', -, failed⟩ := made
  have proper : (Venue.make 16 16).Proper cs := ⟨trivial, apple, trivial⟩
  have properCall : c.Proper x.2.venue := twice
  have properRest : x.2.venue.Proper ds := ⟨Nat.zero_le _, trivial, trivial⟩
  obtain ⟨n, k, names, nonneg, later⟩ := failures_unseen proper answers properCall failed properRest
  obtain rfl : m = n := Option.some.inj names
  exact ⟨x.1, x.2, app', k, nonneg, answers, failed, later⟩

end App

end Swirly
