import Swirly.Verified.Venue.Failed

/-!
# Lists of orders

To revise or cancel a list of orders is to revise or cancel them one after the other, if all of it succeeds; and all of it
succeeds when each one does in its turn.
-/

namespace Swirly

open Function

namespace Venue

variable {v w : Venue} {m now id : Int} {a : Symbol} {change : App.Change} {ids : List Int} {o : Order} {os : List Order} {e : Exec}
  {es : List Exec} {answer : Answer}

/-! ## What is not in the list -/

/-- A change of one order does not hide the others. -/
theorem find_apply (elsewhere : id ≠ o.id) : (v.apply m change now o e).find a m id = v.find a m id := by
  have ignored : ∀ s, ∀ x ∈ v.book m s, x.id = o.id →
      decide (x.accnt = a ∧ x.id = id) = false ∧ ∀ y, (if (changed change now x).done then none else some (changed change now x)) =
        some y → decide (y.accnt = a ∧ y.id = id) = false := by
    intro s x _ here
    refine ⟨decide_eq_false fun both => elsewhere (both.2.symm.trans here), fun y kept => decide_eq_false fun both => elsewhere ?_⟩
    split at kept
    next => cases kept
    next =>
      obtain rfl := Option.some.inj kept
      have same : (changed change now x).id = x.id := by cases change <;> rfl
      exact both.2.symm.trans (same.trans here)
  have sides : ∀ s, ((v.apply m change now o e).book m s).find? (fun x => x.accnt = a ∧ x.id = id) =
      (v.book m s).find? fun x => x.accnt = a ∧ x.id = id := by
    intro s
    simp only [apply, push, amend, setBook, update_self]
    by_cases here : s = o.side
    · rw [here, update_self, List.find?_amend (ignored o.side)]
    · rw [update_of_ne here]
  simp only [find, orders, List.find?_append, sides]

theorem stage_apply (elsewhere : o.id ∉ ids) : (v.apply m change now o e).stage a m change ids = v.stage a m change ids := by
  induction ids with
  | nil => rfl
  | cons id ids inductionHypothesis =>
    have apart : id ≠ o.id := fun same => elsewhere (List.mem_cons.mpr (.inl same.symm))
    rw [stage, stage, find_apply apart, inductionHypothesis fun member => elsewhere (List.mem_cons_of_mem _ member)]

theorem stage_eq_ok {n : Nat} : v.stage a m change (id :: ids) = (n, .ok os) ↔ ∃ o n' os', v.find a m id = some o ∧
    change.check o = none ∧ v.stage a m change ids = (n', .ok os') ∧ n = n' + 1 ∧ os = o :: os' := by
  rw [stage]
  cases v.find a m id with
  | none => simp
  | some o =>
    cases checked : change.check o with
    | some e => simp [checked]
    | none =>
      cases v.stage a m change ids with
      | mk n' later =>
        cases later with
        | error e => simp [checked, Except.map]
        | ok os' => simp [checked, Except.map, eq_comm]

theorem changeByIds_eq_ok : v.changeByIds a m change ids now = (.ok answer, w) ↔ ∃ n os, v.stage a m change ids = (n, .ok os) ∧
    v.changeOrders m change now os = (.ok answer, w) := by
  rw [changeByIds]
  cases v.stage a m change ids with
  | mk n staged =>
    cases staged with
    | error e => simp
    | ok os => simp

/-! ## One order at a time -/

theorem changeOrders_eq_ok : v.changeOrders m change now os = (.ok answer, w) ↔
    ∃ mq, v.mq.postAll (execMsgs (changeReports change now (v.maxId m) os)) = some mq ∧
      answer = .response (some m) (os.map (changed change now)) (changeReports change now (v.maxId m) os) none ∧
      w = (os.zip (changeReports change now (v.maxId m) os)).foldl (fun w x => w.apply m change now x.1 x.2)
        ({ v with mq }.burn m os.length) := by
  rw [changeOrders_carried, changePlan, Plan.carryOut]
  cases v.mq.postAll _ with
  | none => simp
  | some mq => simp [eq_comm]

/-- It does not matter when the ids are given out and when the messages are posted. -/
theorem apply_burn {mq mq' : MsgQueue} {k : Nat} :
    ({ ({ v with mq := mq' }.burn m 1).apply m change now o e with mq }.burn m k : Venue) =
      ({ v with mq }.burn m (k + 1)).apply m change now o e := by
  refine Venue.ext rfl rfl rfl (funext fun n => ?_) rfl rfl rfl rfl rfl
  simp only [burn, apply, push, amend, setBook, update_apply]
  split
  next => simp; omega
  next => rfl

/-- The first of the orders is changed, then the others. -/
theorem changeOrders_cons (sound : v.mq.Sound) : v.changeOrders m change now (o :: os) = (.ok answer, w) ↔
    ∃ e v' es, v.changeOrders m change now [o] = (.ok (.response (some m) [changed change now o] [e] none), v') ∧
      v'.changeOrders m change now os = (.ok (.response (some m) (os.map (changed change now)) es none), w) ∧
      answer = .response (some m) ((o :: os).map (changed change now)) (e :: es) none := by
  obtain ⟨e, isReport⟩ : ∃ e, e = change.report (.make o (v.maxId m + 1) now) := ⟨_, rfl⟩
  have reports : ∀ os, changeReports change now (v.maxId m) (o :: os) = e :: changeReports change now (v.maxId m + 1) os :=
    fun os => by rw [changeReports, isReport]
  have next : ∀ mq, (({ v with mq }.burn m 1).apply m change now o e).maxId m = v.maxId m + 1 := fun mq => update_self ..
  constructor
  · intro done
    obtain ⟨mq, posted, answered, rfl⟩ := changeOrders_eq_ok.mp done
    rw [reports] at posted answered
    rw [show execMsgs (e :: changeReports change now (v.maxId m + 1) os) =
      execMsgs [e] ++ execMsgs (changeReports change now (v.maxId m + 1) os) from rfl, ← MsgQueue.postAll_append sound] at posted
    obtain ⟨mq', first, second⟩ := Option.bind_eq_some_iff.mp posted
    refine ⟨e, ({ v with mq := mq' }.burn m 1).apply m change now o e, changeReports change now (v.maxId m + 1) os,
      changeOrders_eq_ok.mpr ⟨mq', ?_, ?_, ?_⟩, changeOrders_eq_ok.mpr ⟨mq, ?_, ?_, ?_⟩, answered⟩
    · rw [reports]
      exact first
    · rw [reports]
      rfl
    · rw [reports]
      rfl
    · rw [next]
      exact second
    · rw [next]
    · rw [reports, next, apply_burn]
      rfl
  · rintro ⟨e', v', es, first, second, rfl⟩
    obtain ⟨mq', posted, answered, rfl⟩ := changeOrders_eq_ok.mp first
    rw [reports] at posted answered second
    obtain rfl : e' = e := by simpa [changeReports] using answered
    obtain ⟨mq, later, told, rfl⟩ := changeOrders_eq_ok.mp second
    have reached : ([o].zip (e' :: changeReports change now (v.maxId m + 1) [])).foldl (fun w x => w.apply m change now x.1 x.2)
        ({ v with mq := mq' }.burn m [o].length) = ({ v with mq := mq' }.burn m 1).apply m change now o e' := rfl
    rw [reached, next] at later told ⊢
    obtain rfl : es = changeReports change now (v.maxId m + 1) os := by simpa using told
    refine changeOrders_eq_ok.mpr ⟨mq, ?_, by rw [reports], ?_⟩
    · have posted' : v.mq.postAll (execMsgs [e']) = some mq' := posted
      rw [reports, show execMsgs (e' :: changeReports change now (v.maxId m + 1) os) =
        execMsgs [e'] ++ execMsgs (changeReports change now (v.maxId m + 1) os) from rfl, ← MsgQueue.postAll_append sound, posted']
      exact later
    · rw [reports, apply_burn]
      rfl

theorem changeOrders_kept (sound : v.mq.Sound) (done : v.changeOrders m change now os = (.ok answer, w)) :
    w.mq.Sound ∧ w.terms = v.terms := by
  obtain ⟨mq, posted, -, rfl⟩ := changeOrders_eq_ok.mp done
  have kept : ∀ (xs : List (Order × Exec)) (w : Venue), (xs.foldl (fun w x => w.apply m change now x.1 x.2) w).mq = w.mq ∧
      (xs.foldl (fun w x => w.apply m change now x.1 x.2) w).terms = w.terms := by
    intro xs
    induction xs with
    | nil => exact fun _ => ⟨rfl, rfl⟩
    | cons x xs inductionHypothesis => exact fun w => inductionHypothesis _
  rw [(kept _ _).1, (kept _ _).2, ← (MsgQueue.postAll_eq_some.mp posted).2]
  exact ⟨sound.append, rfl⟩

/-- The list is changed when its first order is, and then the others. -/
theorem changeByIds_cons (sound : v.mq.Sound) (nodup : (id :: ids).Nodup) : v.changeByIds a m change (id :: ids) now = (.ok answer, w) ↔
    ∃ o e v' os es, v.changeByIds a m change [id] now = (.ok (.response (some m) [o] [e] none), v') ∧
      v'.changeByIds a m change ids now = (.ok (.response (some m) os es none), w) ∧
      answer = .response (some m) (o :: os) (e :: es) none := by
  have elsewhere : ∀ {o v' e}, v.find a m id = some o → v.changeOrders m change now [o] =
      (.ok (.response (some m) [changed change now o] [e] none), v') → v'.stage a m change ids = v.stage a m change ids := by
    intro o v' e found first
    rw [find] at found
    have holds := List.find?_some found
    have own := (of_decide_eq_true holds).2
    obtain ⟨mq, posted, answered, rfl⟩ := changeOrders_eq_ok.mp first
    have given : ({ v with mq }.burn m 1 : Venue).book m = v.book m := rfl
    have apart : o.id ∉ ids := fun member => (List.nodup_cons.mp nodup).1 (own ▸ member)
    exact (stage_apply apart).trans (stage_congr given ids)
  constructor
  · intro done
    obtain ⟨n, os, staged, changedAll⟩ := changeByIds_eq_ok.mp done
    obtain ⟨o, n', os', found, passed, rest, rfl, rfl⟩ := stage_eq_ok.mp staged
    obtain ⟨e, v', es, first, second, answered⟩ := (changeOrders_cons sound).mp changedAll
    refine ⟨_, e, v', _, es, changeByIds_eq_ok.mpr ⟨1, [o], stage_eq_ok.mpr ⟨o, 0, [], found, passed, rfl, rfl, rfl⟩, first⟩,
      changeByIds_eq_ok.mpr ⟨n', os', (elsewhere found first).trans rest, second⟩, answered⟩
  · rintro ⟨o, e, v', os, es, first, second, rfl⟩
    obtain ⟨k, _, staged, changedFirst⟩ := changeByIds_eq_ok.mp first
    obtain ⟨o', k', none_, found, passed, none_left, rfl, rfl⟩ := stage_eq_ok.mp staged
    cases none_left
    obtain ⟨n, os', stagedRest, changedRest⟩ := changeByIds_eq_ok.mp second
    obtain ⟨-, -, answered, -⟩ := changeOrders_eq_ok.mp changedFirst
    obtain ⟨-, -, answeredRest, -⟩ := changeOrders_eq_ok.mp changedRest
    obtain rfl : o = changed change now o' := by simpa using (Answer.response.inj answered).2.1
    obtain rfl := (Answer.response.inj answeredRest).2.1
    have before := (elsewhere found changedFirst).symm.trans stagedRest
    exact changeByIds_eq_ok.mpr ⟨_, _, stage_eq_ok.mpr ⟨o', n, os', found, passed, before, rfl, rfl⟩,
      (changeOrders_cons sound).mpr ⟨e, v', es, changedFirst, changedRest, rfl⟩⟩

/-! ## Calls -/

/-- The call for one order of a list. -/
def Call.single (a : Symbol) (m : Int) (change : App.Change) (now id : Int) : Call := .changeOrder a m change (.id id) now

/-- What one order of a list is answered. -/
def single (m : Int) (x : Order × Exec) : Except Exception Answer := .ok (.response (some m) [x.1] [x.2] none)

/-- A list of orders is changed exactly when its orders are, one after the other, and with the same result. -/
theorem bulk_run {terms : Symbol × Int × Nat} (known : v.terms m = some terms) (sound : v.mq.Sound) (nodup : ids.Nodup) :
    v.changeByIds a m change ids now = (.ok answer, w) ↔ ∃ xs : List (Order × Exec),
      answer = .response (some m) (xs.map Prod.fst) (xs.map Prod.snd) none ∧
      v.run (ids.map (Call.single a m change now)) = (xs.map (single m), w) := by
  induction ids generalizing v answer with
  | nil =>
    have same : ∀ {mq : MsgQueue}, v.mq.postAll [] = some mq → ({ v with mq } : Venue).burn m 0 = v := by
      intro mq posted
      rw [← (MsgQueue.postAll_eq_some.mp posted).2]
      simp [burn]
    constructor
    · intro done
      obtain ⟨n, os, staged, changedAll⟩ := changeByIds_eq_ok.mp done
      cases staged
      obtain ⟨mq, posted, answered, rfl⟩ := changeOrders_eq_ok.mp changedAll
      exact ⟨[], answered, Prod.ext rfl (same posted).symm⟩
    · rintro ⟨xs, rfl, ran⟩
      obtain ⟨none_, rfl⟩ := Prod.mk.inj ran
      obtain rfl := List.map_eq_nil_iff.mp none_.symm
      have posted : v.mq.postAll [] = some { v.mq with posted := v.mq.posted ++ [] } :=
        MsgQueue.postAll_eq_some.mpr ⟨Nat.zero_le _, rfl⟩
      exact changeByIds_eq_ok.mpr ⟨0, [], rfl, changeOrders_eq_ok.mpr ⟨_, posted, rfl, (same posted).symm⟩⟩
  | cons id ids inductionHypothesis =>
    have called : ∀ {v : Venue}, v.terms m = some terms → v.call (Call.single a m change now id) = v.changeByIds a m change [id] now := by
      intro v known
      rw [Call.single, call, withMarket, known]
    have kept : ∀ {answer v'}, v.changeByIds a m change [id] now = (.ok answer, v') → v'.mq.Sound ∧ v'.terms = v.terms := by
      intro answer v' done
      obtain ⟨-, os, -, changedFirst⟩ := changeByIds_eq_ok.mp done
      exact changeOrders_kept sound changedFirst
    rw [changeByIds_cons sound nodup, List.map_cons, run, called known]
    constructor
    · rintro ⟨o, e, v', os, es, first, second, rfl⟩
      obtain ⟨soundNext, termsNext⟩ := kept first
      obtain ⟨xs, answered, ran⟩ :=
        (inductionHypothesis (termsNext ▸ known) soundNext (List.nodup_cons.mp nodup).2).mp second
      obtain ⟨-, rfl, rfl, -⟩ := Answer.response.inj answered
      exact ⟨(o, e) :: xs, rfl, by rw [first, ran]; rfl⟩
    · rintro ⟨xs, rfl, ran⟩
      cases xs with
      | nil => cases (Prod.mk.inj ran).1
      | cons x xs =>
        obtain ⟨outs, last⟩ := Prod.mk.inj ran
        obtain ⟨first, rest⟩ := List.cons.inj outs
        have done : v.changeByIds a m change [id] now = (single m x, (v.changeByIds a m change [id] now).2) := Prod.ext first rfl
        obtain ⟨soundNext, termsNext⟩ := kept done
        exact ⟨x.1, x.2, _, _, _, done, (inductionHypothesis (termsNext ▸ known) soundNext (List.nodup_cons.mp nodup).2).mpr
          ⟨xs, rfl, Prod.ext rest last⟩, rfl⟩

/-- What the calls for single orders are answered when they all succeed. -/
theorem run_single {terms : Symbol × Int × Nat} (known : v.terms m = some terms) (sound : v.mq.Sound)
    (good : ∀ out ∈ (v.run (ids.map (Call.single a m change now))).1, ∃ answer, out = .ok answer) :
    ∃ xs : List (Order × Exec), (v.run (ids.map (Call.single a m change now))).1 = xs.map (single m) := by
  induction ids generalizing v with
  | nil => exact ⟨[], rfl⟩
  | cons id ids inductionHypothesis =>
    have called : v.call (Call.single a m change now id) = v.changeByIds a m change [id] now := by
      rw [Call.single, call, withMarket, known]
    rw [List.map_cons, run, called] at good ⊢
    obtain ⟨⟨answer, first⟩, rest⟩ := List.forall_mem_cons.mp good
    have done : v.changeByIds a m change [id] now = (.ok answer, (v.changeByIds a m change [id] now).2) := Prod.ext first rfl
    obtain ⟨k, os, staged, changedFirst⟩ := changeByIds_eq_ok.mp done
    obtain ⟨o, k', none_, found, passed, none_left, rfl, rfl⟩ := stage_eq_ok.mp staged
    cases none_left
    obtain ⟨soundNext, termsNext⟩ := changeOrders_kept sound changedFirst
    obtain ⟨xs, answered⟩ := inductionHypothesis (termsNext ▸ known) soundNext rest
    obtain ⟨mq, posted, told, -⟩ := changeOrders_eq_ok.mp changedFirst
    exact ⟨(changed change now o, change.report (.make o (v.maxId m + 1) now)) :: xs, by rw [first, answered, told]; rfl⟩

end Venue

namespace App

variable {capacity maxExecs : Nat} {app : App} {cs : List Venue.Call} {outs : List (Except Exception Venue.Answer)} {a : Symbol}
  {m now : Int} {change : Change} {ids : List Int}

/-- The call with the list of orders succeeds exactly when the calls for the single orders all succeed, one after the other.  It
is then answered as they are, and leaves what they leave. -/
theorem bulk_single (proper : (Venue.make capacity maxExecs).Proper cs)
    (answers : (App.make capacity maxExecs).answers cs = some (outs, app)) (nodup : ids.Nodup) (listed : ids ≠ []) :
    ∃ out last outs' last', app.answers [.changeOrder a m change (.ids ids) now] = some ([out], last) ∧
      app.answers (ids.map (Venue.Call.single a m change now)) = some (outs', last') ∧
      ((∃ answer, out = .ok answer) ↔ ∀ out' ∈ outs', ∃ answer, out' = .ok answer) ∧
      ∀ answer, out = .ok answer → last'.venue = last.venue ∧ ∃ xs : List (Order × Exec),
        answer = .response (some m) (xs.map Prod.fst) (xs.map Prod.snd) none ∧ outs' = xs.map (Venue.single m) := by
  obtain ⟨settled, filed, sound, -⟩ := settled_answers proper answers
  have properBulk : app.venue.Proper [.changeOrder a m change (.ids ids) now] := ⟨nodup, trivial⟩
  have properSingle : ∀ (v : Venue) (ids : List Int), v.Proper (ids.map (Venue.Call.single a m change now)) := by
    intro v ids
    induction ids generalizing v with
    | nil => trivial
    | cons id ids inductionHypothesis => exact ⟨trivial, inductionHypothesis _⟩
  obtain ⟨last, run, venue⟩ := answers_seen settled filed properBulk
  obtain ⟨last', run', venue'⟩ := answers_seen settled filed (properSingle app.venue ids)
  refine ⟨_, last, _, last', run, run', ?_⟩
  rw [venue, venue', Venue.run, Venue.run, Venue.call, Venue.withMarket]
  cases known : app.venue.terms m with
  | none =>
    -- There is no such market, for the list or for its first order.
    refine ⟨⟨?_, fun good => ?_⟩, fun answer done => by cases done⟩
    · rintro ⟨answer, done⟩
      cases done
    · obtain ⟨id, rest, rfl⟩ := List.exists_cons_of_ne_nil listed
      obtain ⟨answer, done⟩ := good _ (List.mem_cons.mpr (.inl rfl))
      rw [Venue.Call.single, Venue.call, Venue.withMarket, known] at done
      cases done
  | some terms =>
    have alike : ∀ answer, (app.venue.changeByIds a m change ids now).1 = .ok answer → ∃ xs : List (Order × Exec),
        answer = .response (some m) (xs.map Prod.fst) (xs.map Prod.snd) none ∧
        app.venue.run (ids.map (Venue.Call.single a m change now)) =
          (xs.map (Venue.single m), (app.venue.changeByIds a m change ids now).2) := fun answer done =>
      (Venue.bulk_run known sound nodup).mp (Prod.ext done rfl)
    refine ⟨⟨?_, fun good => ?_⟩, fun answer done => ?_⟩
    · rintro ⟨answer, done⟩
      obtain ⟨xs, -, ran⟩ := alike answer done
      rw [ran]
      intro out' member
      obtain ⟨x, -, rfl⟩ := List.mem_map.mp member
      exact ⟨_, rfl⟩
    · obtain ⟨xs, ran⟩ := Venue.run_single known sound good
      have done := (Venue.bulk_run known sound nodup).mpr ⟨xs, rfl, Prod.ext ran rfl⟩
      exact ⟨_, congrArg Prod.fst done⟩
    · obtain ⟨xs, answered, ran⟩ := alike answer done
      rw [ran]
      exact ⟨rfl, xs, answered, rfl⟩

/-- Two orders are revised together. -/
theorem bulk_single_two :
    let a : Symbol := .assign (bytes "MARAYL")
    let m := toMarketId 1 0
    let cs : List Venue.Call := [.createMarket 1 (.assign (bytes "EURUSD")) 0 0 0, .createOrder a m (bytes "apple") .sell 10 5 0 2 0,
      .createOrder a m [] .sell 4 6 0 3 0]
    ∃ outs app out last outs' last', (App.make 16 16).answers cs = some (outs, app) ∧
      app.answers [.changeOrder a m (.revise 3) (.ids [2, 1]) 4] = some ([out], last) ∧
      app.answers ([2, 1].map (Venue.Call.single a m (.revise 3) 4)) = some (outs', last') ∧
      last'.venue = last.venue ∧ ∃ xs : List (Order × Exec), xs.length = 2 ∧
        out = .ok (.response (some m) (xs.map Prod.fst) (xs.map Prod.snd) none) ∧ outs' = xs.map (Venue.single m) := by
  intro a m cs
  have apple : (bytes "apple").length ≤ maxRef := by decide
  have proper : (Venue.make 16 16).Proper cs := ⟨trivial, apple, Nat.zero_le _, trivial⟩
  have twice : [(2 : Int), 1].Nodup := by decide
  have made : ∃ x ∈ (App.make 16 16).answers cs, ∃ y ∈ x.2.answers [.changeOrder a m (.revise 3) (.ids [2, 1]) 4],
      ∃ _ ∈ y.1.head?.bind Except.toOption, ∃ z ∈ x.2.answers ([2, 1].map (Venue.Call.single a m (.revise 3) 4)),
        z.1.length = 2 := by decide +kernel
  obtain ⟨x, answers, y, bulk, answer, succeeded, z, single, length⟩ := made
  obtain ⟨out, last, outs', last', run, run', -, alike⟩ := bulk_single proper answers twice (List.cons_ne_nil _ _)
  obtain rfl : ([out], last) = y := Option.some.inj (run.symm.trans bulk)
  have done : out = .ok answer := by
    cases out with
    | error e => cases succeeded
    | ok answer' => rw [show answer' = answer from Option.some.inj succeeded]
  obtain ⟨venue, xs, answered, ran⟩ := alike answer done
  obtain rfl : (outs', last') = z := Option.some.inj (run'.symm.trans single)
  have two : xs.length = 2 := by
    rw [ran, List.length_map] at length
    exact length
  exact ⟨x.1, x.2, out, last, outs', last', answers, run, run', venue, xs, two, by rw [done, answered], ran⟩

end App

end Swirly
