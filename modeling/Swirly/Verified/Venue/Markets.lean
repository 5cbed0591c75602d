import Swirly.Lib.Run
import Swirly.Verified.Venue.Call
import Swirly.Verified.Venue.Plan

/-!
# Markets do not interfere

The shard of a market is what a venue holds of it: its terms, ids, last trade and book, and the trades and positions of the
accounts in it.  A call in a market is planned from its shard and carried out in it, provided that the accounts use each
reference in one market only.  Calls in other markets therefore cannot be noticed there, unless they fill the queue.
-/

namespace Swirly

open Function

@[ext]
structure Venue.Shard where
  terms : Option (Symbol × Int × Nat)
  maxId : Int
  last : Int × Int × Int
  book : Side → List Order
  posn : Symbol → Posn
  trades : Symbol → Int → Option Exec

namespace Venue

def shard (v : Venue) (m : Int) : Shard where
  terms := v.terms m
  maxId := v.maxId m
  last := v.last m
  book := v.book m
  posn a := v.posn a m
  trades a id := v.trades a (idKey m id)

/-- The market in which an account uses a reference. -/
abbrev Home := Symbol → Bytes → Int

/-- The open orders are in their markets, and have the references of these. -/
def Homed (home : Home) (v : Venue) : Prop :=
  ∀ n s, ∀ o ∈ v.book n s, o.marketId = n ∧ (o.ref.data ≠ [] → home o.accnt o.ref.data = n)

variable {home : Home} {v w : Venue} {m n : Int} {a : Symbol} {s : Side} {o : Order} {f g : Venue → Venue}

theorem shard_eq_iff : v.shard m = w.shard m ↔ v.terms m = w.terms m ∧ v.maxId m = w.maxId m ∧ v.last m = w.last m ∧
    v.book m = w.book m ∧ (∀ a, v.posn a m = w.posn a m) ∧ ∀ a id, v.trades a (idKey m id) = w.trades a (idKey m id) := by
  simp [Shard.ext_iff, shard, funext_iff]

/-- A change of the venue in one market. -/
structure Local (home : Home) (m : Int) (f : Venue → Venue) : Prop where
  mq : ∀ v, (f v).mq = v.mq
  same : ∀ v w, v.shard m = w.shard m → (f v).shard m = (f w).shard m
  others : ∀ v n, n ≠ m → (f v).shard n = v.shard n
  homed : ∀ v, v.Homed home → (f v).Homed home

namespace Local

theorem refl : Local home m id := ⟨fun _ => rfl, fun _ _ same => same, fun _ _ _ => rfl, fun _ homed => homed⟩

theorem comp (second : Local home m g) (first : Local home m f) : Local home m fun v => g (f v) where
  mq v := (second.mq _).trans (first.mq v)
  same v w agree := second.same _ _ (first.same v w agree)
  others v n elsewhere := (second.others _ n elsewhere).trans (first.others v n elsewhere)
  homed v homed := second.homed _ (first.homed v homed)

theorem foldl {α : Type} {f : Venue → α → Venue} {xs : List α} (each : ∀ x ∈ xs, Local home m fun v => f v x) :
    Local home m fun v => xs.foldl f v := by
  induction xs with
  | nil => exact refl
  | cons x xs inductionHypothesis =>
    obtain ⟨first, rest⟩ := List.forall_mem_cons.mp each
    exact (inductionHypothesis rest).comp first

theorem burn (k : Nat) : Local home m fun v => v.burn m k where
  mq _ := rfl
  same v w agree := by
    obtain ⟨terms, maxId, last, book, posn, trades⟩ := shard_eq_iff.mp agree
    simp [shard_eq_iff, Venue.burn, terms, maxId, last, book, posn, trades]
  others v n elsewhere := by simp [shard, Venue.burn, elsewhere]
  homed _ homed := homed

theorem setLast (lots ticks time : Int) : Local home m fun v => v.setLast m lots ticks time where
  mq _ := rfl
  same v w agree := by
    obtain ⟨terms, maxId, -, book, posn, trades⟩ := shard_eq_iff.mp agree
    simp [shard_eq_iff, Venue.setLast, terms, maxId, book, posn, trades]
  others v n elsewhere := by simp [shard, Venue.setLast, elsewhere]
  homed _ homed := homed

/-- The history is not in the shard of any market. -/
theorem push (a : Symbol) (e : Exec) : Local home m fun v => v.push a e :=
  ⟨fun _ => rfl, fun _ _ same => same, fun _ _ _ => rfl, fun _ homed => homed⟩

theorem file (a : Symbol) {e : Exec} (here : e.marketId = m) : Local home m fun v => v.file a m e where
  mq _ := rfl
  same v w agree := by
    obtain ⟨terms, maxId, last, book, posn, trades⟩ := shard_eq_iff.mp agree
    have key : e.key = idKey m e.id := by rw [Request.key, here]
    refine shard_eq_iff.mpr ⟨terms, maxId, last, book, fun b => ?_, fun b id => ?_⟩
    · simp only [Venue.file, update_apply]
      split <;> simp [posn]
    · simp only [Venue.file, Venue.push, update_apply, key]
      split
      next =>
        rw [update_apply, update_apply]
        split <;> simp [trades]
      next => exact trades b id
  others v n elsewhere := by
    have apart : ∀ id, idKey n id ≠ e.key := fun id same => elsewhere ((idKey_inj.mp same).1.trans here)
    refine shard_eq_iff.mpr ⟨rfl, rfl, rfl, rfl, fun b => ?_, fun b id => ?_⟩
    · simp only [Venue.file, update_apply]
      split
      next same => rw [update_of_ne elsewhere, same]
      next => rfl
    · simp only [Venue.file, Venue.push, update_apply]
      split
      next same => rw [update_of_ne (apart id), same]
      next => rfl
  homed _ homed := homed

/-- One side of a book becomes a list made from it. -/
theorem setBook {change : List Order → List Order}
    (homed : ∀ os, ∀ o ∈ change os, (∃ o' ∈ os, o.marketId = o'.marketId ∧ o.accnt = o'.accnt ∧ o.ref = o'.ref) ∨
      (o.marketId = m ∧ (o.ref.data ≠ [] → home o.accnt o.ref.data = m))) :
    Local home m fun v => v.setBook m s (change (v.book m s)) where
  mq _ := rfl
  same v w agree := by
    obtain ⟨terms, maxId, last, book, posn, trades⟩ := shard_eq_iff.mp agree
    simp [shard_eq_iff, Venue.setBook, terms, maxId, last, book, posn, trades]
  others v n elsewhere := by simp [shard, Venue.setBook, elsewhere]
  homed v before n t o member := by
    simp only [Venue.setBook, update_apply] at member
    split at member
    next here =>
      subst here
      simp only [update_apply] at member
      split at member
      next =>
        cases homed _ o member with
        | inl old =>
          obtain ⟨o', listed, market, accnt, ref⟩ := old
          rw [market, accnt, ref]
          exact before _ _ o' listed
        | inr new => exact new
      next => exact before _ _ o member
    next => exact before _ _ o member

/-- An order changes in its place. -/
theorem amend {id : Int} {change : Order → Order}
    (kept : ∀ o, (change o).marketId = o.marketId ∧ (change o).accnt = o.accnt ∧ (change o).ref = o.ref) :
    Local home m fun v => v.amend m s id change := by
  refine setBook fun os o member => .inl ?_
  cases List.mem_amend.mp member with
  | inl old => exact ⟨o, old.1, rfl, rfl, rfl⟩
  | inr changed =>
    obtain ⟨o', listed, -, made⟩ := changed
    split at made
    next => cases made
    next =>
      obtain rfl := Option.some.inj made
      exact ⟨o', listed, kept o'⟩

theorem enter (here : o.marketId = m) (own : o.ref.data ≠ [] → home o.accnt o.ref.data = m) : Local home m fun v => v.enter m o := by
  by_cases done : o.done = true
  · simp only [Venue.enter, if_pos done]
    exact refl
  · simp only [Venue.enter, if_neg done]
    have entered : ∀ os, ∀ o' ∈ List.arrive (fun o : Order => composeKey o.side o.ticks) os o,
        (∃ o'' ∈ os, o'.marketId = o''.marketId ∧ o'.accnt = o''.accnt ∧ o'.ref = o''.ref) ∨
          (o'.marketId = m ∧ (o'.ref.data ≠ [] → home o'.accnt o'.ref.data = m)) := by
      intro os o' member
      cases List.mem_arrive.mp member with
      | inl new => exact .inr (new ▸ ⟨here, own⟩)
      | inr old => exact .inl ⟨o', old, rfl, rfl, rfl⟩
    exact setBook entered

end Local

/-! ## Plans -/

namespace Plan

/-- The plan stays in the market. -/
inductive Within (home : Home) (m : Int) : Plan → Prop
  | refuse {e : Exception} {ids : Nat} : Within home m (.refuse e ids)
  | post {msgs : List Msg} {ids : Nat} {commit : Venue → Venue} {answer : Venue → Answer} (about : ∀ msg ∈ msgs, msg.marketId = m)
      (committed : Local home m commit) (told : ∀ v w, v.shard m = w.shard m → answer v = answer w) :
      Within home m (.post msgs ids commit answer)

end Plan

/-- The second venue looks to the market like the first. -/
structure Looks (home : Home) (m : Int) (v w : Venue) : Prop where
  mq : v.mq.Looks m w.mq
  shard : v.shard m = w.shard m
  homed : v.Homed home
  homedLooks : w.Homed home

namespace Plan

variable {plan : Plan}

/-- Where the first venue has room, the second answers the same. -/
theorem Within.agree (within : plan.Within home m) (looks : Looks home m v w)
    (good : (plan.carryOut m v).1 ≠ .error .insufficientQueueCapacity) :
    (plan.carryOut m w).1 = (plan.carryOut m v).1 ∧ Looks home m (plan.carryOut m v).2 (plan.carryOut m w).2 := by
  cases within with
  | @refuse e ids =>
    have burnt : Local home m fun v => v.burn m ids := .burn ids
    exact ⟨rfl, looks.mq, burnt.same v w looks.shard, looks.homed, looks.homedLooks⟩
  | @post msgs ids commit answer about committed told =>
    cases posted : v.mq.postAll msgs with
    | none =>
      refine absurd ?_ good
      simp only [carryOut, posted]
    | some mq =>
      obtain ⟨mq', postedLooks, looksNext⟩ := looks.mq.postAll posted
      have whole : Local home m fun v => commit (v.burn m ids) := committed.comp (.burn ids)
      have shard := whole.same { v with mq } { w with mq := mq' } looks.shard
      simp only [carryOut, posted, postedLooks]
      refine ⟨by rw [told _ _ shard], ?_, shard, whole.homed { v with mq } looks.homed,
        whole.homed { w with mq := mq' } looks.homedLooks⟩
      rw [committed.mq, committed.mq]
      exact looksNext

/-- A call in another market does not show. -/
theorem Within.skip (within : plan.Within home n) (elsewhere : n ≠ m) (looks : Looks home m v w) :
    Looks home m (plan.carryOut n v).2 w := by
  have burnt : ∀ ids, Local home n fun v => v.burn n ids := .burn
  have undone : ∀ ids, Looks home m (v.burn n ids) w := fun ids =>
    ⟨looks.mq, ((burnt ids).others v m elsewhere.symm).trans looks.shard, looks.homed, looks.homedLooks⟩
  cases within with
  | @refuse e ids => exact undone ids
  | @post msgs ids commit answer about committed told =>
    cases posted : v.mq.postAll msgs with
    | none =>
      simp only [carryOut, posted]
      exact undone ids
    | some mq =>
      have whole : Local home n fun v => commit (v.burn n ids) := committed.comp (burnt ids)
      simp only [carryOut, posted]
      refine ⟨?_, (whole.others { v with mq } m elsewhere.symm).trans looks.shard, whole.homed { v with mq } looks.homed,
        looks.homedLooks⟩
      rw [committed.mq]
      exact looks.mq.skip (fun msg member here => elsewhere ((about msg member).symm.trans here)) posted

end Plan

end Venue

namespace Venue

variable {home : Home} {v w : Venue} {m n : Int} {a cpty : Symbol} {s : Side} {o : Order} {terms : Symbol × Int × Nat}
  {ref : Bytes} {side : Side} {lots ticks minLots now busDay created : Int} {liqInd : LiqInd} {change : App.Change} {ids : List Int}
  {es : List Exec} {os : List Order}

theorem marketId_execMsgs (here : ∀ e ∈ es, e.marketId = m) : ∀ msg ∈ execMsgs es, msg.marketId = m := by
  intro msg member
  obtain ⟨e, listed, rfl⟩ := List.mem_map.mp member
  exact here e listed

/-! ## New orders -/

theorem mem_orders_homed (homed : v.Homed home) (member : o ∈ v.orders m) :
    o.marketId = m ∧ (o.ref.data ≠ [] → home o.accnt o.ref.data = m) := by
  cases List.mem_append.mp member with
  | inl bid => exact homed m .buy o bid
  | inr offer => exact homed m .sell o offer

/-- A reference can only be taken in its own market. -/
theorem refTaken_iff (homed : v.Homed home) (own : ref ≠ [] → home a ref = m) :
    v.RefTaken a ref ↔ (v.findRef a m ref).isSome := by
  refine ⟨fun taken => ?_, fun found => ⟨m, found⟩⟩
  obtain ⟨n, taken⟩ := taken
  obtain ⟨o, found⟩ := Option.isSome_iff_exists.mp taken
  rw [findRef] at found
  have holds := List.find?_some found
  obtain ⟨accnt, stored, referred⟩ := of_decide_eq_true holds
  have homedHere := (mem_orders_homed homed (List.mem_of_find?_eq_some found)).2 (by rw [stored]; exact referred)
  rw [accnt, stored, own referred] at homedHere
  rw [homedHere]
  exact taken

theorem findRef_congr (book : v.book m = w.book m) (ref : Bytes) : v.findRef a m ref = w.findRef a m ref := by
  simp only [findRef, orders, book]

theorem deals_congr (book : v.book m = w.book m) (o : Order) : v.deals m o = w.deals m o := by
  simp only [deals, offers, book]

theorem Local.settle {d : Deal} (here : o.marketId = m) (maker : d.maker.marketId = m) :
    Local home m fun v => v.settle m o now d := by
  have amended : Local home m fun v => v.amend m o.side.opposite d.maker.id fun o => o.trade d.lots d.maker.ticks now :=
    .amend fun o => ⟨rfl, rfl, rfl⟩
  have makerFiled : Local home m fun v => v.file d.maker.accnt m (d.makerExec o now) := .file _ maker
  have takerFiled : Local home m fun v => v.file o.accnt m (d.takerExec o now) := .file _ here
  exact takerFiled.comp (makerFiled.comp ((Local.setLast d.lots d.maker.ticks now).comp amended))

theorem Local.accept {ds : List Deal} (here : o.marketId = m) (own : o.ref.data ≠ [] → home o.accnt o.ref.data = m)
    (makers : ∀ d ∈ ds, d.maker.marketId = m) : Local home m fun v => v.accept m o now ds := by
  obtain ⟨market, accnt, ref⟩ := dealt_same o now ds
  have entered : Local home m fun v => v.enter m (o.dealt now ds) :=
    .enter (market.trans here) (by rw [accnt, ref]; exact own)
  have settled : Local home m fun v => ds.foldl (fun v d => v.settle m o now d) v :=
    .foldl fun d member => .settle here (makers d member)
  exact settled.comp ((Local.push o.accnt (.make o o.id now)).comp entered)

theorem orderPlan_within (homed : v.Homed home) (short : ref.length ≤ maxRef) (own : ref ≠ [] → home a ref = m) :
    (v.orderPlan a m terms ref side lots ticks minLots now busDay).Within home m := by
  rw [orderPlan]
  cases v.admission a terms ref lots minLots busDay with
  | some e => exact .refuse
  | none =>
    obtain ⟨o, made⟩ : ∃ o, o = Order.make a m terms.1 terms.2.1 (v.maxId m + 1) ref side lots ticks minLots now := ⟨_, rfl⟩
    simp only [← made]
    have here : o.marketId = m := by rw [made]; rfl
    have makers : ∀ d ∈ v.deals m o, d.maker.marketId = m := fun d member => (homed _ _ _ (mem_deals member)).1
    refine .post (marketId_execMsgs ?_) (.accept here ?_ makers) ?_
    · refine List.forall_mem_cons.mpr ⟨here, fun e member => ?_⟩
      obtain ⟨d, listed, inside⟩ := List.mem_flatMap.mp member
      simp only [Deal.execs, List.mem_cons, List.not_mem_nil, or_false] at inside
      obtain rfl | rfl := inside
      · exact makers d listed
      · exact here
    · rw [show o.ref.data = ref by rw [made]; exact StringBuf.assign_data short, show o.accnt = a by rw [made]; rfl]
      exact own
    · intro v' w' agree
      obtain ⟨-, -, -, -, posn, -⟩ := shard_eq_iff.mp agree
      simp only [posn]

theorem orderPlan_congr (homed : v.Homed home) (homedLooks : w.Homed home) (agree : v.shard m = w.shard m)
    (own : ref ≠ [] → home a ref = m) :
    v.orderPlan a m terms ref side lots ticks minLots now busDay = w.orderPlan a m terms ref side lots ticks minLots now busDay := by
  obtain ⟨-, maxId, -, book, -, -⟩ := shard_eq_iff.mp agree
  have admission : v.admission a terms ref lots minLots busDay = w.admission a terms ref lots minLots busDay := by
    simp only [admission, refTaken_iff homed own, refTaken_iff homedLooks own, findRef_congr book]
  simp only [orderPlan, admission, maxId, deals_congr book]

/-! ## Changes -/

theorem marketId_changeReports {id : Int} (here : ∀ o ∈ os, o.marketId = m) :
    ∀ e ∈ changeReports change now id os, e.marketId = m := by
  induction os generalizing id with
  | nil => simp [changeReports]
  | cons o os inductionHypothesis =>
    obtain ⟨first, rest⟩ := List.forall_mem_cons.mp here
    refine List.forall_mem_cons.mpr ⟨?_, inductionHypothesis rest⟩
    cases change <;> exact first

theorem Local.apply {e : Exec} : Local home m fun v => v.apply m change now o e := by
  have amended : Local home m fun v => v.amend m o.side o.id (changed change now) := .amend (changed_same change now)
  exact (Local.push o.accnt e).comp amended

theorem changePlan_within (here : ∀ o ∈ os, o.marketId = m) : (v.changePlan m change now os).Within home m :=
  .post (marketId_execMsgs (marketId_changeReports here)) (.foldl fun _ _ => .apply) fun _ _ _ => rfl

theorem changePlan_congr (maxId : v.maxId m = w.maxId m) : v.changePlan m change now os = w.changePlan m change now os := by
  simp only [changePlan, maxId]

theorem idsPlan_within (homed : v.Homed home) : (v.idsPlan a m change ids now).Within home m := by
  rw [idsPlan]
  cases staged : v.stage a m change ids with
  | mk n result =>
    cases result with
    | error e => exact .refuse
    | ok os => exact changePlan_within fun o member => (mem_orders_homed homed (mem_stage staged o member)).1

theorem refPlan_within (homed : v.Homed home) : (v.refPlan a m change ref now).Within home m := by
  rw [refPlan]
  cases found : v.findRef a m ref with
  | none => exact .refuse
  | some o =>
    have here := (mem_orders_homed homed (List.mem_of_find?_eq_some found)).1
    cases checked : change.check o with
    | some e =>
      simp only [checked]
      exact .refuse
    | none =>
      simp only [checked]
      exact changePlan_within (by simpa using here)

/-! ## Trades -/

theorem tradePlan_within : (v.tradePlan a m terms ref side lots ticks liqInd cpty created).Within home m := by
  obtain ⟨trade, made⟩ : ∃ trade, trade = Exec.makeManual m terms.1 terms.2.1 (v.maxId m + 1) a ref side lots ticks
    (v.posn a m).netLots (v.posn a m).netCost liqInd cpty created := ⟨_, rfl⟩
  have here : trade.marketId = m := by rw [made]; rfl
  have own : Local home m fun w => w.file a m (trade.posn 0 0) := .file a here
  by_cases alone : cpty.isEmpty = true
  · simp only [tradePlan, if_pos alone, ← made]
    exact .post (marketId_execMsgs (by simpa using here)) own fun _ _ _ => rfl
  · have other : Local home m fun w => w.file cpty m ((trade.opposite (v.maxId m + 2)).posn 0 0) := .file cpty here
    simp only [tradePlan, if_neg alone, ← made]
    exact .post (marketId_execMsgs (by simpa [Exec.opposite] using here)) (own.comp other) fun _ _ _ => rfl

theorem Local.unfile : Local home m fun w => w.unfile a m ids where
  mq _ := rfl
  same v w agree := by
    obtain ⟨terms, maxId, last, book, posn, trades⟩ := shard_eq_iff.mp agree
    refine shard_eq_iff.mpr ⟨terms, maxId, last, book, posn, fun b id => ?_⟩
    simp only [Venue.unfile, update_apply]
    split
    next => simp only [trades]
    next => exact trades b id
  others v n elsewhere := by
    refine shard_eq_iff.mpr ⟨rfl, rfl, rfl, rfl, fun b => rfl, fun b id => ?_⟩
    have kept : idKey n id ∉ ids.map (idKey m) := fun member => by
      obtain ⟨i, -, same⟩ := List.mem_map.mp member
      exact elsewhere (idKey_inj.mp same).1.symm
    simp only [Venue.unfile, update_apply]
    split
    next here => exact (if_neg kept).trans (by rw [here])
    next => rfl
  homed _ homed := homed

theorem archivePlan_within : (v.archivePlan a m ids now).Within home m := by
  rw [archivePlan]
  cases ids.find? fun id => (v.trades a (idKey m id)).isNone with
  | some id => exact .refuse
  | none => exact .post (fun msg => MsgQueue.marketId_archiveMsgs) .unfile fun _ _ _ => rfl

/-! ## Markets -/

theorem Local.setTerms (terms : Symbol × Int × Nat) : Local home m fun v => v.setTerms m terms where
  mq _ := rfl
  same v w agree := by
    obtain ⟨-, maxId, last, book, posn, trades⟩ := shard_eq_iff.mp agree
    simp [shard_eq_iff, Venue.setTerms, maxId, last, book, posn, trades]
  others v n elsewhere := by simp [shard, Venue.setTerms, elsewhere]
  homed _ homed := homed

theorem createMarketPlan_within {instr : Symbol} {settlDay : Int} {state : Nat} :
    (v.createMarketPlan m instr settlDay state busDay).Within home m := by
  rw [createMarketPlan]
  split
  next => exact .refuse
  next =>
    split
    next => exact .refuse
    next => exact .post (by simp [Msg.marketId]) (.setTerms _) fun _ _ _ => rfl

theorem updateMarketPlan_within {state : Nat} : (updateMarketPlan m terms state).Within home m :=
  .post (by simp [Msg.marketId]) (.setTerms _) fun _ _ _ => rfl

theorem marketPlan_within {plan : Symbol × Int × Nat → Plan} (each : ∀ terms, (plan terms).Within home m) :
    (v.marketPlan m plan).Within home m := by
  rw [marketPlan]
  cases v.terms m with
  | none => exact .refuse
  | some terms => exact each terms

/-! ## Calls -/

/-- References are short and used in one market each, and nothing is named twice. -/
def Call.Keeps (home : Home) : Call → Prop
  | createOrder a m ref _ _ _ _ _ _ => ref.length ≤ maxRef ∧ (ref ≠ [] → home a ref = m)
  | changeOrder a m _ (.ref ref) _ => ref ≠ [] → home a ref = m
  | changeOrder _ _ _ (.ids ids) _ => ids.Nodup
  | archiveTrades _ _ ids _ => ids.Nodup
  | _ => True

/-- The call names the market, or it names none. -/
def Call.concerns (m : Int) (c : Call) : Bool := c.market.all (· = m)

variable {c : Call} {cs : List Call}

theorem proper_of_keeps (homed : v.Homed home) (keeps : c.Keeps home) : c.Proper v := by
  cases c with
  | createOrder => exact keeps.1
  | changeOrder a m change target now =>
    cases target with
    | id => trivial
    | ids => exact keeps
    | ref ref =>
      intro n elsewhere
      refine List.find?_eq_none.mpr fun o member found => elsewhere ?_
      obtain ⟨accnt, stored, referred⟩ := of_decide_eq_true found
      have here := (mem_orders_homed homed member).2 (by rw [stored]; exact referred)
      rw [accnt, stored, keeps referred] at here
      exact here.symm
  | archiveTrades => exact keeps
  | _ => trivial

/-- The plan of a call stays in its market. -/
theorem plan_within {plan : Plan} (homed : v.Homed home) (keeps : c.Keeps home) (names : c.market = some m)
    (planned : c.plan v = some plan) : plan.Within home m := by
  cases c with
  | sess => cases names
  | pop => cases names
  | createMarket =>
    obtain rfl := Option.some.inj names
    obtain rfl := Option.some.inj planned
    exact createMarketPlan_within
  | updateMarket =>
    obtain rfl := Option.some.inj names
    obtain rfl := Option.some.inj planned
    exact marketPlan_within fun _ => updateMarketPlan_within
  | createOrder =>
    obtain rfl := Option.some.inj names
    obtain rfl := Option.some.inj planned
    exact marketPlan_within fun _ => orderPlan_within homed keeps.1 keeps.2
  | changeOrder a n change target now =>
    obtain rfl := Option.some.inj names
    cases target with
    | id =>
      obtain rfl := Option.some.inj planned
      exact marketPlan_within fun _ => idsPlan_within homed
    | ref =>
      obtain rfl := Option.some.inj planned
      exact marketPlan_within fun _ => refPlan_within homed
    | ids =>
      obtain rfl := Option.some.inj planned
      exact marketPlan_within fun _ => idsPlan_within homed
  | createTrade =>
    obtain rfl := Option.some.inj names
    obtain rfl := Option.some.inj planned
    exact marketPlan_within fun _ => tradePlan_within
  | archiveTrade =>
    obtain rfl := Option.some.inj names
    obtain rfl := Option.some.inj planned
    exact archivePlan_within
  | archiveTrades =>
    obtain rfl := Option.some.inj names
    obtain rfl := Option.some.inj planned
    exact archivePlan_within

/-- Nothing but the shard goes into the plan. -/
theorem plan_congr (homed : v.Homed home) (homedLooks : w.Homed home) (keeps : c.Keeps home) (names : c.market = some m)
    (agree : v.shard m = w.shard m) : c.plan v = c.plan w := by
  obtain ⟨terms, maxId, -, book, posn, trades⟩ := shard_eq_iff.mp agree
  cases c with
  | sess => rfl
  | pop => rfl
  | createMarket =>
    obtain rfl := Option.some.inj names
    simp only [Call.plan, createMarketPlan, terms]
  | updateMarket =>
    obtain rfl := Option.some.inj names
    simp only [Call.plan, marketPlan, terms]
  | createOrder =>
    obtain rfl := Option.some.inj names
    simp only [Call.plan, marketPlan, terms, orderPlan_congr homed homedLooks agree keeps.2]
  | changeOrder a n change target now =>
    obtain rfl := Option.some.inj names
    cases target with
    | id => simp only [Call.plan, marketPlan, terms, idsPlan, stage_congr book, changePlan_congr maxId]
    | ref => simp only [Call.plan, marketPlan, terms, refPlan, findRef_congr book, changePlan_congr maxId]
    | ids => simp only [Call.plan, marketPlan, terms, idsPlan, stage_congr book, changePlan_congr maxId]
  | createTrade =>
    obtain rfl := Option.some.inj names
    simp only [Call.plan, marketPlan, terms, tradePlan, maxId, posn]
  | archiveTrade =>
    obtain rfl := Option.some.inj names
    simp only [Call.plan, archivePlan, trades]
  | archiveTrades =>
    obtain rfl := Option.some.inj names
    simp only [Call.plan, archivePlan, trades]

/-- A call that names no market shows in all of them alike. -/
theorem agree_of_unnamed (looks : Looks home m v w) (names : c.market = none) :
    (w.call c).1 = (v.call c).1 ∧ Looks home m (v.call c).2 (w.call c).2 := by
  cases c with
  | sess => exact ⟨rfl, looks⟩
  | pop => exact ⟨rfl, looks.mq.pop, looks.shard, looks.homed, looks.homedLooks⟩
  | _ => cases names

/-- Calls in other markets are not noticed. -/
theorem unnoticed (home : Home) (m : Int) : Transducer.Unnoticed call (Call.Keeps home) (Call.concerns m)
    (· ≠ .error .insufficientQueueCapacity) (Looks home m) where
  agree v w c looks keeps concerns good := by
    cases names : c.market with
    | none => exact agree_of_unnamed looks names
    | some n =>
      obtain rfl : n = m := by simpa [Call.concerns, names] using concerns
      obtain ⟨plan, planned, carried⟩ := call_carried looks.mq.sound names
      obtain ⟨plan', planned', carried'⟩ := call_carried looks.mq.soundLooks names
      rw [plan_congr looks.homed looks.homedLooks keeps names looks.shard, planned'] at planned
      obtain rfl := Option.some.inj planned
      rw [carried] at good ⊢
      rw [carried']
      exact (plan_within looks.homedLooks keeps names planned').agree looks good
  skip v w c looks keeps other := by
    cases names : c.market with
    | none => exact absurd (by simp [Call.concerns, names]) other
    | some n =>
      have elsewhere : n ≠ m := by simpa [Call.concerns, names] using other
      obtain ⟨plan, planned, carried⟩ := call_carried looks.mq.sound names
      rw [carried]
      exact (plan_within looks.homed keeps names planned).skip elsewhere looks

/-- Every call leaves the open orders in their markets. -/
theorem homed_call (homed : v.Homed home) (sound : v.mq.Sound) (keeps : c.Keeps home) :
    (v.call c).2.Homed home ∧ (v.call c).2.mq.Sound := by
  cases names : c.market with
  | none =>
    have looks := (agree_of_unnamed (m := 0) ⟨.refl sound, rfl, homed, homed⟩ names).2
    exact ⟨looks.homed, looks.mq.sound⟩
  | some n =>
    obtain ⟨plan, planned, carried⟩ := call_carried sound names
    -- Seen from some other market the call is one that is skipped.
    have same : Looks home (n + 1) v v := ⟨.refl sound, rfl, homed, homed⟩
    have looks := (plan_within homed keeps names planned).skip (show n ≠ n + 1 by omega) same
    rw [carried]
    exact ⟨looks.homed, looks.mq.sound⟩

theorem proper_run (homed : v.Homed home) (sound : v.mq.Sound) (keeps : ∀ c ∈ cs, c.Keeps home) : v.Proper cs := by
  induction cs generalizing v with
  | nil => trivial
  | cons c cs inductionHypothesis =>
    obtain ⟨first, rest⟩ := List.forall_mem_cons.mp keeps
    obtain ⟨homedNext, soundNext⟩ := homed_call homed sound first
    exact ⟨proper_of_keeps homed first, inductionHypothesis homedNext soundNext rest⟩

theorem run_eq : v.run cs = ((Transducer.run call v cs).1.map Prod.snd, (Transducer.run call v cs).2) := by
  induction cs generalizing v with
  | nil => rfl
  | cons c cs inductionHypothesis =>
    rw [run, inductionHypothesis]
    rfl

/-- The answers in a market do not depend on the calls in other markets, nor does what becomes of the market. -/
theorem run_concerns (homed : v.Homed home) (sound : v.mq.Sound) (keeps : ∀ c ∈ cs, c.Keeps home)
    (room : ∀ x ∈ cs.zip (v.run cs).1, x.1.concerns m → x.2 ≠ .error .insufficientQueueCapacity) :
    (v.run (cs.filter (Call.concerns m))).1 = ((cs.zip (v.run cs).1).filter fun x => x.1.concerns m).map Prod.snd ∧
      Looks home m (v.run cs).2 (v.run (cs.filter (Call.concerns m))).2 := by
  have pairs : cs.zip (v.run cs).1 = (Transducer.run call v cs).1 := by
    rw [run_eq]
    exact (List.zip_of_prod Transducer.inputs_run rfl).symm
  rw [pairs] at room ⊢
  obtain ⟨outputs, looks⟩ := Transducer.run_filter (unnoticed home m) ⟨.refl sound, rfl, homed, homed⟩ keeps room
  rw [run_eq, run_eq]
  exact ⟨by rw [outputs], looks⟩

end Venue

namespace App

variable {capacity maxExecs : Nat} {cs : List Venue.Call} {outs : List (Except Exception Venue.Answer)} {app : App} {m : Int}

/-- Without the calls in other markets the engine answers the same in a market, posts the same messages about it and leaves
it the same. -/
theorem markets_apart (home : Venue.Home) (keeps : ∀ c ∈ cs, c.Keeps home)
    (answers : (App.make capacity maxExecs).answers cs = some (outs, app))
    (room : ∀ x ∈ cs.zip outs, x.1.concerns m → x.2 ≠ .error .insufficientQueueCapacity) :
    ∃ app', (App.make capacity maxExecs).answers (cs.filter (Venue.Call.concerns m)) =
        some (((cs.zip outs).filter fun x => x.1.concerns m).map Prod.snd, app') ∧
      app'.venue.shard m = app.venue.shard m ∧
      app'.mq.posted.filter (fun msg => msg.marketId = m) = app.mq.posted.filter fun msg => msg.marketId = m := by
  have homed : (Venue.make capacity maxExecs).Homed home := fun n s o member => by cases member
  have sound : (Venue.make capacity maxExecs).mq.Sound := le_rfl
  have start : (App.make capacity maxExecs).venue = .make capacity maxExecs := venue_make capacity maxExecs
  have settled := Settled.make capacity maxExecs
  have filed := refsFiled_make capacity maxExecs
  obtain ⟨last, run, venue⟩ := answers_seen settled filed (start ▸ Venue.proper_run homed sound keeps)
  rw [answers, start] at run
  rw [start] at venue
  obtain ⟨rfl, rfl⟩ : outs = ((Venue.make capacity maxExecs).run cs).1 ∧ app = last := by simpa using run
  obtain ⟨outputs, looks⟩ := Venue.run_concerns homed sound keeps room
  have kept : ∀ c ∈ cs.filter (Venue.Call.concerns m), c.Keeps home := fun c member => keeps c (List.mem_of_mem_filter member)
  obtain ⟨app', run', venue'⟩ := answers_seen settled filed (start ▸ Venue.proper_run homed sound kept)
  rw [start] at run' venue'
  refine ⟨app', by rw [run', outputs], ?_, ?_⟩
  · rw [venue', venue]
    exact looks.shard.symm
  · have posted := looks.mq.posted
    rw [← venue', ← venue] at posted
    exact posted

/-- Two markets with an order of one account in each; the calls in the second one are left out. -/
theorem markets_apart_two :
    let a : Symbol := .assign (bytes "MARAYL")
    let b : Symbol := .assign (bytes "GOSAYL")
    let m := toMarketId 1 0
    let n := toMarketId 2 0
    let cs : List Venue.Call := [.createMarket 1 (.assign (bytes "EURUSD")) 0 0 0, .createMarket 2 (.assign (bytes "USDJPY")) 0 0 0,
      .createOrder a n (bytes "pear") .sell 3 4 0 2 0, .createOrder a m (bytes "apple") .sell 10 5 0 3 0,
      .createOrder b n [] .buy 5 4 0 4 0, .pop, .createOrder b m [] .buy 4 5 0 5 0, .changeOrder a m .cancel (.ref (bytes "apple")) 6]
    ∃ outs app app', (App.make 16 16).answers cs = some (outs, app) ∧
      (App.make 16 16).answers (cs.filter (Venue.Call.concerns m)) =
        some (((cs.zip outs).filter fun x => x.1.concerns m).map Prod.snd, app') ∧
      app'.venue.shard m = app.venue.shard m ∧ app.mq.posted.length = 11 ∧ (cs.filter (Venue.Call.concerns m)).length = 5 := by
  intro a b m n cs
  obtain ⟨home, isHome⟩ : ∃ home : Venue.Home, home = fun _ ref => if ref = bytes "pear" then n else m := ⟨_, rfl⟩
  have apple : home a (bytes "apple") = m := by
    rw [isHome]
    decide
  have pear : home a (bytes "pear") = n := by
    rw [isHome]
    decide
  have short : (bytes "apple").length ≤ maxRef ∧ (bytes "pear").length ≤ maxRef := by decide
  have keeps : ∀ c ∈ cs, Venue.Call.Keeps home c := by
    simp only [cs, List.forall_mem_cons, Venue.Call.Keeps, apple, pear]
    simp [short]
  have made : ∃ x ∈ (App.make 16 16).answers cs, (∀ y ∈ cs.zip x.1, y.1.concerns m → y.2 ≠ .error .insufficientQueueCapacity) ∧
      x.2.mq.posted.length = 11 := by decide +kernel
  obtain ⟨x, answers, room, posted⟩ := made
  obtain ⟨app', filtered, shard, -⟩ := markets_apart home keeps answers room
  exact ⟨x.1, x.2, app', answers, filtered, shard, posted, by decide⟩

end App

end Swirly
