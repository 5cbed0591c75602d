import Swirly.Verified.App.Step

/-!
# The reference index

`Live.refs` says that the index of a session holds open orders of its account only.  It holds all of them that have a
reference, and no two of them share one, as long as references fit in `Ref`: a longer one is cut off when it is stored
but not when `create_order` looks it up.
-/

namespace Swirly

open Function MarketSide

/-- The reference index holds every open order that has a reference. -/
def View.RefsFiled (v : View) : Prop :=
  ∀ m s, ∀ p ∈ (v.side m s).orders, (v.heap.order p).ref.data ≠ [] →
    (v.refs (v.heap.order p).accnt).find (v.heap.order p).ref.data = some p

section Untouched

variable {v : View} {a : Symbol} {e : ExecPtr} {m lots ticks time : Int}

@[simp] theorem View.refsFiled_fileTrade : (v.fileTrade a m e).RefsFiled ↔ v.RefsFiled := Iff.rfl
@[simp] theorem View.refsFiled_setLast : (v.setLast m lots ticks time).RefsFiled ↔ v.RefsFiled := Iff.rfl
@[simp] theorem View.refsFiled_pushExec : (v.pushExec a e).RefsFiled ↔ v.RefsFiled := Iff.rfl

end Untouched

variable {v v' : View} {a : Symbol} {m now : Int} {s : Side} {p : OrderPtr} {change : App.Change}

/-- An order leaves the index when it leaves the book; no other one has its reference. -/
theorem Shrinks.refsFiled {stays : Prop} {o : Order} {h : Heap} {x : MarketSide} (shrinks : Shrinks v m s p stays o h x)
    (live : v.Live) (filed : v.RefsFiled) : (v.shrink m s p h x).RefsFiled := by
  have same : ∀ q, (h.order q).Same (v.heap.order q) := (shrinks.kept live).same
  intro n t q member referred
  obtain ⟨listed, open_⟩ := (shrinks.mem_orders live).mp member
  rw [View.heap_shrink] at referred ⊢
  rw [(same q).ref] at referred ⊢
  rw [(same q).accnt]
  have filedQ := filed n t q listed referred
  unfold View.shrink
  split
  next done =>
    simp only [View.removeOrder, View.setSide]
    split
    next => exact filedQ
    next =>
      rw [update_apply]
      split
      next sameAccnt =>
        rw [OrdMap.find_erase]
        split
        next sameRef =>
          -- The order that leaves is found by this reference, so it is this one.
          rw [(same p).accnt] at sameAccnt
          rw [(same p).ref] at sameRef
          have filedP := filed m s p shrinks.member (sameRef ▸ referred)
          rw [← sameAccnt, ← sameRef, filedQ] at filedP
          exact absurd (shrinks.stays_iff.mpr (open_ (Option.some.inj filedP))) (shrinks.done_iff.mp done)
        next => rw [← sameAccnt]; exact filedQ
      next => exact filedQ
  next => exact filedQ

theorem Committed.refsFiled {x : Match} (committed : Committed a m s now x v v') (filed : v.RefsFiled) : v'.RefsFiled := by
  obtain ⟨live, h, side, shrinks, rfl⟩ := committed
  simpa using shrinks.refsFiled live filed

theorem Commits.refsFiled {xs : List Match} (commits : Commits a m s now xs v v') (filed : v.RefsFiled) : v'.RefsFiled := by
  induction commits with
  | nil => exact filed
  | cons first _ inductionHypothesis => exact inductionHypothesis (first.refsFiled filed)

/-- References fit in the field that stores them. -/
def Op.ShortRef : Op → Prop
  | createOrder _ _ ref _ _ _ _ _ _ => ref.length ≤ maxRef
  | _ => True

instance (op : Op) : Decidable op.ShortRef :=
  match op with
  | .createOrder _ _ ref _ _ _ _ _ _ => inferInstanceAs (Decidable (ref.length ≤ maxRef))
  | .sess .. | .createMarket .. | .updateMarket .. | .changeOrder .. | .createTrade .. | .archiveExec .. | .archiveTrade ..
  | .archiveTrades .. | .pop => .isTrue trivial

namespace App

variable {app app' : App} {op : Op} {ref : Bytes} {side : Side} {lots ticks minLots busDay : Int} {o : Order}

theorem Changes.refsFiled {xs : List (ExecPtr × OrderPtr)} (changes : Changes change now xs v v') (filed : v.RefsFiled) :
    v'.RefsFiled := by
  induction changes with
  | nil => exact filed
  | cons first _ inductionHypothesis =>
    obtain ⟨live, h, x, shrinks, rfl⟩ := first
    exact inductionHypothesis (by simpa using shrinks.refsFiled live filed)

/-- An accepted reference is not in the index. -/
theorem absent_of_admission (checked : app.admission a m ref lots minLots busDay = none) (referred : ref ≠ []) :
    (app.view.refs a).find ref = none := by
  unfold admission at checked
  split at checked
  next => cases checked
  next unique =>
    cases found : (app.view.refs a).find ref with
    | none => rfl
    | some p =>
      have known : (app.sess a).exists ref = true := by
        rw [Sess.exists, show (app.sess a).refIdx.find ref = some p from found]
        rfl
      exact absurd ⟨referred, known⟩ unique

theorem Opened.refsFiled (inv : app.Inv) (filed : app.view.RefsFiled) (short : ref.length ≤ maxRef)
    (checked : app.admission a m ref lots minLots busDay = none)
    (incoming : o = app.incoming a m ref side lots ticks minLots now)
    (opened : Opened app a m o now (app.incomingFills m o) v) : v.RefsFiled := by
  have stored : o.ref.data = ref := by rw [incoming]; exact StringBuf.assign_data short
  have ownAccnt : o.accnt = a := by rw [incoming]; rfl
  have refs : v.refs = openedRefs app a o now (app.incomingFills m o) := by rw [opened.view]
  intro n t q member referred
  cases (opened.placed.listed n t q).mp member with
  | inl old =>
    have differ : q ≠ app.heap.orders.fresh := OrdMap.ne_fresh (inv.live.present old)
    have same : v.heap.order q = app.heap.order q := opened.placed.order_ne differ
    rw [same] at referred ⊢
    have filedQ := filed n t q old referred
    rw [refs, openedRefs]
    split
    next => exact filedQ
    next =>
      rw [update_apply]
      split
      next sameAccnt =>
        rw [OrdMap.find_insert, ← sameAccnt]
        split
        next sameRef => rw [← sameRef, show app.view.heap.order q = app.heap.order q from rfl] at *; rw [filedQ]; rfl
        next => exact filedQ
      next => exact filedQ
  | inr new =>
    obtain ⟨rfl, -, -, open_⟩ := new
    have same : (v.heap.order app.heap.orders.fresh).Same o := by
      have kept := opened.placed.kept.same app.heap.orders.fresh
      rwa [Heap.order_newOrder_self] at kept
    rw [same.ref, stored] at referred ⊢
    have notDone : ¬ ((filled o now (app.incomingFills m o)).done ∨ o.ref.isEmpty) := by
      rintro (done | noRef)
      · exact open_ (of_decide_eq_true done)
      · exact referred (stored ▸ List.isEmpty_iff.mp noRef)
    rw [same.accnt, ownAccnt, refs, openedRefs, if_neg notDone, update_self, stored, OrdMap.find_insert, if_pos rfl,
      absent_of_admission checked referred]
    rfl

theorem Effect.refsFiled (inv : app.Inv) (filed : app.view.RefsFiled) (short : op.ShortRef) (effect : Effect app op app') :
    app'.view.RefsFiled := by
  cases effect with
  | idle grown view execs => rw [view]; exact filed
  | posted view archived execs silent => rw [view]; exact filed
  | created checked opened commits ledger => exact commits.refsFiled (opened.refsFiled inv filed short checked rfl)
  | changed held journaled changes execs => exact changes.refsFiled filed
  | traded traded =>
    cases traded with
    | oneSided alone journal view matches_ execs_ execs => rw [view]; exact filed
    | twoSided paired journal view matches_ execs_ execs => rw [view]; exact filed
  | archived view archived owner execs silent => rw [view]; exact filed

theorem Inv.refsFiled_run {Allowed : App → Op → Prop} {ops : List Op} (inv : app.Inv) (filed : app.view.RefsFiled)
    (short : ∀ app op, Allowed app op → op.ShortRef) (run : Run App.step Allowed app ops app') :
    app'.Inv ∧ app'.view.RefsFiled := by
  refine run.invariant (I := fun app => app.Inv ∧ app.view.RefsFiled) ?_ ⟨inv, filed⟩
  rintro app op next ⟨inv, filed⟩ allowed stepped
  obtain ⟨app₀, view₀, -, inv₀, effect, -⟩ := step_effect inv stepped
  exact ⟨inv.step stepped, effect.refsFiled inv₀ (view₀ ▸ filed) (short _ _ allowed)⟩

theorem refsFiled_make (capacity maxExecs : Nat) : (App.make capacity maxExecs).view.RefsFiled := fun _ s _ member => by
  cases s <;> cases member

end App

end Swirly
